import Epos.ForStd.TransitionSystem
import Epos.Spec.TcpCorrect

/-!
# Delivery and acknowledgement

The bytes that an observer gets have the sequence numbers by which `RCV.NXT` advances as
long as the handlers acknowledge what `update` delivers. `update` decides on the state
and on `_valid` alone. The handlers also look at the flags and at the acknowledgement,
and `process_fin()` counts from the number of the segment.
-/

namespace Epos

namespace TCP

/-- The states whose handlers take data. -/
def State.receives : State → Bool
  | .ESTABLISHED | .FIN_WAIT1 | .FIN_WAIT2 => true
  | _ => false

/-- The states that receive. -/
theorem State.receives_iff {s : State} :
    s.receives = true ↔ s = .ESTABLISHED ∨ s = .FIN_WAIT1 ∨ s = .FIN_WAIT2 := by
  cases s <;> simp [State.receives]

/-- The states in which a `FIN` may have ended the data. -/
def State.ended : State → Bool
  | .CLOSE_WAIT | .CLOSING | .LAST_ACK | .TIME_WAIT | .CLOSED => true
  | _ => false

/-- None of them has ended. -/
theorem State.ended_of_receives {s : State} (h : s.receives = true) : s.ended = false := by
  cases s <;> simp [State.receives, State.ended] at h ⊢

/-! ## Runs -/

/-- Segments and the alarm, `close()`, and whatever a `write()` does to the fields of the
    sender. -/
inductive Action where
  | segment (ok : Bool) (g : Received)
  | alarm (ok : Bool)
  | close (ok : Bool)
  | write (sequence next unacknowledged : Nat) (streaming retransmitting : Bool)

/-- The numbers that a segment may add to `RCV.NXT` do not reach 2^32. -/
def AwayFromWrap (c : Connection) (g : Received) : Prop :=
  c.acknowledgment + WINDOW < 2 ^ 32 ∧ c.acknowledgment + g.length + 1 < 2 ^ 32

instance (c : Connection) (g : Received) : Decidable (AwayFromWrap c g) :=
  inferInstanceAs (Decidable (_ ∧ _))

/-- Segments arrive while the connection takes data, away from the wrap. -/
def delivery : TransitionSystem Connection Action where
  Init c := c.state = .ESTABLISHED ∧ c.delivered = []
  Enabled c a :=
    match a with
    | .segment _ g => c.state.receives = true ∧ AwayFromWrap c g
    | _ => True
  next c a :=
    match a with
    | .segment ok g => c.update ok g
    | .alarm ok => c.timeout ok
    | .close ok => (c.close ok).1
    | .write sequence next unacknowledged streaming retransmitting =>
      { c with
        sequence := sequence
        next := next
        unacknowledged := unacknowledged
        streaming := streaming
        retransmitting := retransmitting }

/-- The observer has the bytes from `start` up to `RCV.NXT`. The `FIN` that ends them has
    a number and no byte. -/
def Matches (start : Nat) (c : Connection) : Prop :=
  c.delivered.map Prod.fst = List.range' start c.delivered.length ∧
    (c.acknowledgment = start + c.delivered.length ∨
      c.state.ended = true ∧ c.acknowledgment = start + c.delivered.length + 1)

/-- The number of bytes that `notify()` hands over. -/
def handed (c : Connection) (g : Received) : Nat := if c.observer then g.payload.length else 0

/-- The segment has data and the number that is expected. -/
def InOrder (c : Connection) (g : Received) : Prop :=
  g.length ≠ 0 ∧ g.sequence = c.acknowledgment ∧ g.acknowledgment ≤ c.next ∧
    g.has Flags.RST = false ∧ g.has Flags.SYN = false

/-- The handlers take the data of a segment with an `ACK`, in `ESTABLISHED` only if it is
    not older than the last one. -/
def Accepts (c : Connection) (g : Received) : Prop :=
  g.has Flags.ACK = true ∧
    (c.state = .ESTABLISHED → c.streaming = true ∨ c.unacknowledged ≤ g.acknowledgment)

/-- Data that comes in order is taken if it is handed over: all of it is in the first
    buffer, and with a `FIN` it is at most one byte. -/
def AcknowledgesData (c : Connection) (a : Action) : Prop :=
  match a with
  | .segment _ g =>
    InOrder c g →
      (Accepts c g → g.has Flags.FIN = false → handed c g = g.length) ∧
      (Accepts c g → g.has Flags.FIN = true → handed c g ≤ 1) ∧
      (¬Accepts c g → handed c g = 0)
  | _ => True

instance (c : Connection) (g : Received) : Decidable (InOrder c g) :=
  inferInstanceAs (Decidable (_ ∧ _))

instance (c : Connection) (g : Received) : Decidable (Accepts c g) :=
  inferInstanceAs (Decidable (_ ∧ _))

instance : (c : Connection) → (a : Action) → Decidable (AcknowledgesData c a)
  | _, .segment _ _ => inferInstanceAs (Decidable (_ → _))
  | _, .alarm _ => isTrue trivial
  | _, .close _ => isTrue trivial
  | _, .write .. => isTrue trivial

instance : (c : Connection) → (a : Action) → Decidable (delivery.Enabled c a)
  | _, .segment _ _ => inferInstanceAs (Decidable (_ ∧ _))
  | _, .alarm _ => isTrue trivial
  | _, .close _ => isTrue trivial
  | _, .write .. => isTrue trivial

/-! ## One step -/

section

open Connection

variable {c : Connection} {g : Received} {start : Nat}

/-- Subtracting one, with the wrap. -/
theorem subUnsigned_one_eq {n : Nat} (h : n < 2 ^ 32) :
    subUnsigned n 1 = if n = 0 then 2 ^ 32 - 1 else n - 1 := by
  unfold subUnsigned
  split
  · rename_i hn
    rw [hn]
    rfl
  · omega

/-- Away from the wrap the test is that for the expected number. -/
theorem checkSequence_iff (haway : c.acknowledgment + WINDOW < 2 ^ 32)
    (hle : g.sequence ≤ c.acknowledgment) :
    c.checkSequence g = true ↔ g.sequence = c.acknowledgment := by
  have hwindow : ¬WINDOW = 0 := by decide
  have hend : (c.acknowledgment + WINDOW) % 2 ^ 32 = c.acknowledgment + WINDOW :=
    Nat.mod_eq_of_lt haway
  have hlast := subUnsigned_one_eq (n := g.sequence) (by omega)
  unfold checkSequence
  rw [if_neg hwindow]
  simp only [hend]
  split
  · simp only [Bool.and_eq_true, decide_eq_true_eq]
    omega
  · rename_i hlen
    have hlen' : c.length = 0 := not_not.mp hlen
    simp only [hlen', Nat.add_zero, hlast, Bool.or_eq_true, Bool.and_eq_true, decide_eq_true_eq]
    constructor
    · intro h
      split at h <;> omega
    · intro h
      left
      omega

/-- What the handlers see of `Accepts`. -/
def Takes (c : Connection) (g : Received) : Prop :=
  g.has Flags.ACK = true ∧ (c.state = .ESTABLISHED → c.unacknowledged ≤ g.acknowledgment)

/-- What a handler does with a segment behind its tests. -/
structure Handled (c : Connection) (g : Received) (r : Connection) : Prop where
  valid : r.valid = true
  length : r.length = c.length
  delivered : r.delivered = c.delivered
  observer : r.observer = c.observer
  data : Takes c g → g.has Flags.FIN = false →
    r.state.receives = true ∧ r.acknowledgment = c.acknowledgment + c.length
  fin : Takes c g → g.has Flags.FIN = true →
    r.state.ended = true ∧ r.acknowledgment = c.acknowledgment + 1
  other : ¬Takes c g → r.state.receives = true ∧ r.acknowledgment = c.acknowledgment

/-- The fields that no handler behind its tests changes. -/
structure HandlerFrame (c r : Connection) : Prop where
  valid : r.valid = true
  length : r.length = c.length
  delivered : r.delivered = c.delivered
  observer : r.observer = c.observer

section

variable {r : Connection} (hk : HandlerFrame c r)
include hk

/-- A segment with data was handled. -/
theorem HandlerFrame.handled_data (ht : Takes c g) (hfin : ¬g.has Flags.FIN = true)
    (hs : r.state.receives = true) (ha : r.acknowledgment = c.acknowledgment + c.length) :
    Handled c g r where
  valid := hk.valid
  length := hk.length
  delivered := hk.delivered
  observer := hk.observer
  data _ _ := ⟨hs, ha⟩
  fin _ h := absurd h hfin
  other hno := absurd ht hno

/-- A FIN was handled. -/
theorem HandlerFrame.handled_fin (ht : Takes c g) (hfin : g.has Flags.FIN = true)
    (hs : r.state.ended = true) (ha : r.acknowledgment = c.acknowledgment + 1) :
    Handled c g r where
  valid := hk.valid
  length := hk.length
  delivered := hk.delivered
  observer := hk.observer
  data _ hno := absurd (hfin.symm.trans hno) (by decide)
  fin _ _ := ⟨hs, ha⟩
  other hno := absurd ht hno

/-- A segment that is not taken was handled. -/
theorem HandlerFrame.handled_other (ht : ¬Takes c g) (hs : r.state.receives = true)
    (ha : r.acknowledgment = c.acknowledgment) : Handled c g r where
  valid := hk.valid
  length := hk.length
  delivered := hk.delivered
  observer := hk.observer
  data h := absurd h ht
  fin h := absurd h ht
  other _ := ⟨hs, ha⟩

end

/-- The data is acknowledged, if there is any. -/
theorem acknowledgeData_eq (ok : Bool) (h : c.acknowledgment + c.length < 2 ^ 32) :
    ∃ sequence next sent, c.acknowledgeData ok =
      { c with
        sequence := sequence
        next := next
        sent := sent
        acknowledgment := c.acknowledgment + c.length } := by
  by_cases hlen : c.length = 0
  · have hsum : c.acknowledgment + c.length = c.acknowledgment := by omega
    refine ⟨c.sequence, c.next, c.sent, ?_⟩
    unfold acknowledgeData
    rw [if_neg (not_not.mpr hlen), hsum]
  · let r := c.advance.fsend ok Flags.ACK
    refine ⟨r.sequence, r.next, r.sent, ?_⟩
    unfold acknowledgeData
    rw [if_pos hlen, ← Nat.mod_eq_of_lt h]
    rfl

section

variable (ok : Bool) (hcheck : c.checkSequence g = true) (hrst : g.has Flags.RST = false)
  (hsyn : g.has Flags.SYN = false) (haway : c.acknowledgment + c.length + 1 < 2 ^ 32)
  (hseq : g.sequence = c.acknowledgment)
include hcheck hrst hsyn haway hseq

/-- The handler of `ESTABLISHED`. -/
theorem established_handled (hs : c.state = .ESTABLISHED) (hnext : g.acknowledgment ≤ c.next) :
    Handled c g (c.established ok g) := by
  have htakes : Takes c g ↔ (g.has Flags.ACK && (decide (c.unacknowledged ≤ g.acknowledgment) &&
      decide (g.acknowledgment ≤ c.next))) = true := by
    simp [Takes, hs, hnext]
  have hreceives : c.state.receives = true := by rw [hs]; rfl
  have hack : (g.sequence + 1) % 2 ^ 32 = c.acknowledgment + 1 := by omega
  obtain ⟨sequence, next, sent, hdata⟩ :=
    acknowledgeData_eq (c := { c with valid := true }) ok (Nat.lt_of_succ_lt haway)
  unfold established
  rw [inSequence_body ok hcheck hrst hsyn]
  dsimp only
  rw [hdata]
  by_cases ht : Takes c g
  · rw [if_pos (htakes.mp ht)]
    by_cases hfin : g.has Flags.FIN = true
    · rw [if_pos hfin]
      exact HandlerFrame.handled_fin ⟨rfl, rfl, rfl, rfl⟩ ht hfin rfl hack
    · rw [if_neg hfin]
      exact HandlerFrame.handled_data ⟨rfl, rfl, rfl, rfl⟩ ht hfin hreceives rfl
  · rw [if_neg (mt htakes.mpr ht)]
    exact HandlerFrame.handled_other ⟨rfl, rfl, rfl, rfl⟩ ht hreceives rfl

/-- The handler of `FIN_WAIT1`. -/
theorem finWait1_handled (hs : c.state = .FIN_WAIT1) : Handled c g (c.finWait1 ok g) := by
  have htakes : Takes c g ↔ g.has Flags.ACK = true := by simp [Takes, hs]
  have hreceives : c.state.receives = true := by rw [hs]; rfl
  have hack : (g.sequence + 1) % 2 ^ 32 = c.acknowledgment + 1 := by omega
  obtain ⟨sequence, next, sent, hdata⟩ :=
    acknowledgeData_eq (c := { c with valid := true }) ok (Nat.lt_of_succ_lt haway)
  unfold finWait1
  rw [inSequence_body ok hcheck hrst hsyn]
  dsimp only
  rw [hdata]
  by_cases ht : Takes c g
  · rw [if_pos (htakes.mp ht)]
    by_cases hfin : g.has Flags.FIN = true
    · rw [if_pos hfin, if_pos hfin]
      split
      · exact HandlerFrame.handled_fin ⟨rfl, rfl, rfl, rfl⟩ ht hfin rfl hack
      · exact HandlerFrame.handled_fin ⟨rfl, rfl, rfl, rfl⟩ ht hfin rfl hack
    · rw [if_neg hfin, if_neg hfin]
      split
      · exact HandlerFrame.handled_data ⟨rfl, rfl, rfl, rfl⟩ ht hfin rfl rfl
      · exact HandlerFrame.handled_data ⟨rfl, rfl, rfl, rfl⟩ ht hfin hreceives rfl
  · rw [if_neg (mt htakes.mpr ht)]
    exact HandlerFrame.handled_other ⟨rfl, rfl, rfl, rfl⟩ ht hreceives rfl

/-- The handler of `FIN_WAIT2`. -/
theorem finWait2_handled (hs : c.state = .FIN_WAIT2) : Handled c g (c.finWait2 ok g) := by
  have htakes : Takes c g ↔ g.has Flags.ACK = true := by simp [Takes, hs]
  have hreceives : c.state.receives = true := by rw [hs]; rfl
  have hack : (g.sequence + 1) % 2 ^ 32 = c.acknowledgment + 1 := by omega
  obtain ⟨sequence, next, sent, hdata⟩ :=
    acknowledgeData_eq (c := { c with valid := true }) ok (Nat.lt_of_succ_lt haway)
  unfold finWait2
  rw [inSequence_body ok hcheck hrst hsyn]
  dsimp only
  rw [hdata]
  by_cases ht : Takes c g
  · rw [if_pos (htakes.mp ht)]
    by_cases hfin : g.has Flags.FIN = true
    · rw [if_pos hfin]
      exact HandlerFrame.handled_fin ⟨rfl, rfl, rfl, rfl⟩ ht hfin rfl hack
    · rw [if_neg hfin]
      exact HandlerFrame.handled_data ⟨rfl, rfl, rfl, rfl⟩ ht hfin hreceives rfl
  · rw [if_neg (mt htakes.mpr ht)]
    exact HandlerFrame.handled_other ⟨rfl, rfl, rfl, rfl⟩ ht hreceives rfl

end

/-- A handler that takes data leaves it alone if its tests fail. -/
theorem handler_refuses (ok : Bool) (hs : c.state.receives = true)
    (h : c.checkSequence g = false ∨ g.has Flags.RST = true ∨ g.has Flags.SYN = true) :
    (c.handler ok g).valid = false ∧ (c.handler ok g).delivered = c.delivered ∧
      (c.handler ok g).acknowledgment = c.acknowledgment := by
  -- the three states share the checks in front of their own part
  have hbody (body : Connection → Connection) :
      (c.inSequence ok true g body).valid = false ∧
        (c.inSequence ok true g body).delivered = c.delivered ∧
        (c.inSequence ok true g body).acknowledgment = c.acknowledgment := by
    cases hcheck : c.checkSequence g with
    | false =>
      rw [inSequence_invalid ok hcheck]
      split <;> exact ⟨rfl, rfl, rfl⟩
    | true =>
      cases hrst : g.has Flags.RST with
      | true =>
        rw [inSequence_reset ok hcheck hrst]
        exact ⟨rfl, rfl, rfl⟩
      | false =>
        have hsyn : g.has Flags.SYN = true := by simpa [hcheck, hrst] using h
        rw [inSequence_syn ok hcheck hrst hsyn]
        exact ⟨rfl, rfl, rfl⟩
  rcases State.receives_iff.mp hs with hs | hs | hs <;>
    · unfold handler
      rw [hs]
      exact hbody _

/-- What a notification delivers, by sequence numbers. -/
theorem notify_numbers : (c.notify g).delivered.map Prod.fst =
    c.delivered.map Prod.fst ++ List.range' g.sequence (handed c g) := by
  have hnumbers : (g.payload.mapIdx fun i b => (g.sequence + i, b)).map Prod.fst =
      List.range' g.sequence g.payload.length := by
    refine List.ext_getElem (by simp) fun i hi _ => ?_
    simp
  unfold notify handed
  split
  · rw [List.map_append, hnumbers]
  · rw [List.range'_zero, List.append_nil]

/-- The states that receive deliver. -/
theorem State.delivers_of_receives {s : State} (h : s.receives = true) :
    State.delivers s = true := by
  cases s <;> simp [State.receives, State.delivers] at h ⊢

/-- The segment comes through to its handler. -/
theorem handler_handled (ok : Bool) (hs : c.state.receives = true) (hcheck : c.checkSequence g = true)
    (hrst : g.has Flags.RST = false) (hsyn : g.has Flags.SYN = false)
    (hnext : g.acknowledgment ≤ c.next) (haway : c.acknowledgment + c.length + 1 < 2 ^ 32)
    (hseq : g.sequence = c.acknowledgment) : Handled c g (c.handler ok g) := by
  unfold handler
  rcases State.receives_iff.mp hs with hs | hs | hs
  · rw [hs]
    exact established_handled ok hcheck hrst hsyn haway hseq hs hnext
  · rw [hs]
    exact finWait1_handled ok hcheck hrst hsyn haway hseq hs
  · rw [hs]
    exact finWait2_handled ok hcheck hrst hsyn haway hseq hs

/-- What `update` makes of a segment that passes the tests of the handlers. -/
theorem update_passes (ok : Bool) (hs : c.state.receives = true) (haway : AwayFromWrap c g)
    (hseq : g.sequence = c.acknowledgment) (hnext : g.acknowledgment ≤ c.next)
    (hrst : g.has Flags.RST = false) (hsyn : g.has Flags.SYN = false) :
    (c.update ok g).delivered.map Prod.fst =
        c.delivered.map Prod.fst ++
          List.range' c.acknowledgment (if g.length = 0 then 0 else handed c g) ∧
      (Accepts c g → g.has Flags.FIN = false → (c.update ok g).state.receives = true ∧
        (c.update ok g).acknowledgment = c.acknowledgment + g.length) ∧
      (Accepts c g → g.has Flags.FIN = true → (c.update ok g).state.ended = true ∧
        (c.update ok g).acknowledgment = c.acknowledgment + 1) ∧
      (¬Accepts c g → (c.update ok g).state.receives = true ∧
        (c.update ok g).acknowledgment = c.acknowledgment) := by
  have hdelivers := State.delivers_of_receives hs
  -- neither of the first two tests of `update` drops the segment
  have hearly : ¬c.Early g := fun h => absurd h.2 (by omega)
  obtain ⟨relevant, hupdate⟩ := update_handled ok hearly (Nat.not_lt.mpr hnext)
  obtain ⟨peer, toPort, hopened⟩ := opened_eq c g
  have haccepts : Takes (c.opened g) g ↔ Accepts c g := by
    rw [hopened]
    unfold Takes Accepts
    by_cases hstreaming : c.streaming = true
    · simp [hstreaming]
    · simp [hstreaming]
  -- the fields that the handlers look at are as they were before `update`
  have hfields : (c.opened g).acknowledgment = c.acknowledgment ∧
      (c.opened g).length = g.length ∧ (c.opened g).delivered = c.delivered ∧
      (c.opened g).observer = c.observer := by
    rw [hopened]
    exact ⟨rfl, rfl, rfl, rfl⟩
  obtain ⟨hack, hlength, hdelivered, hobserver⟩ := hfields
  have hcheck : (c.opened g).checkSequence g = true := by
    rw [checkSequence_iff (by rw [hack]; exact haway.1) (by rw [hack]; exact Nat.le_of_eq hseq)]
    rw [hack, hseq]
  have hhandled : Handled (c.opened g) g ((c.opened g).handler ok g) := by
    apply handler_handled ok _ hcheck hrst hsyn
    · rw [hopened]
      exact hnext
    · rw [hopened]
      exact haway.2
    · rw [hopened]
      exact hseq
    · rw [hopened]
      exact hs
  -- after the handler, `update` only signals and notifies
  obtain ⟨streamSignal, hfinish⟩ :=
    finish_eq ((c.opened g).handler ok g) c.state relevant g
  have hdata := hhandled.data
  have hfin := hhandled.fin
  have hother := hhandled.other
  rw [haccepts, hack] at hdata hfin hother
  rw [hlength] at hdata
  rw [hupdate, hfinish]
  refine ⟨?_, hdata, hfin, hother⟩
  dsimp only
  rw [hhandled.valid, hdelivers, hhandled.length, hlength, ← hdelivered]
  by_cases hlen : g.length = 0
  · simp [hlen, hhandled.delivered]
  · rw [if_pos (by simpa using hlen), if_neg hlen, notify_numbers, hhandled.delivered, hseq]
    unfold handed
    rw [hhandled.observer, hobserver]

/-- What does not pass them is left alone. -/
theorem update_fails (ok : Bool) (hs : c.state.receives = true) (haway : AwayFromWrap c g)
    (h : g.sequence = c.acknowledgment → g.acknowledgment ≤ c.next →
      g.has Flags.RST = false → g.has Flags.SYN = true) :
    (c.update ok g).delivered = c.delivered ∧
      (c.update ok g).acknowledgment = c.acknowledgment := by
  by_cases hearly : c.Early g
  · obtain ⟨peer, toPort, harrive⟩ := arrive_eq c g
    rw [update_early ok hearly, harrive]
    exact ⟨rfl, rfl⟩
  · by_cases hbeyond : c.next < g.acknowledgment
    · obtain ⟨peer, toPort, harrive⟩ := arrive_eq c g
      rw [update_beyond ok hearly hbeyond, harrive]
      exact ⟨rfl, rfl⟩
    · obtain ⟨relevant, hupdate⟩ := update_handled ok hearly hbeyond
      obtain ⟨peer, toPort, hopened⟩ := opened_eq c g
      -- a segment from behind the expected number is too early
      have hle : g.sequence ≤ c.acknowledgment := by
        have hwaits : ¬(c.state = .LISTENING ∨ c.state = .SYN_SENT) := by
          rcases State.receives_iff.mp hs with hs | hs | hs <;> simp [hs]
        exact Nat.not_lt.mp fun hlt => hearly ⟨hwaits, hlt⟩
      -- behind the early tests, the handlers refuse it by one of theirs
      have hrefuses : (c.opened g).checkSequence g = false ∨ g.has Flags.RST = true ∨
          g.has Flags.SYN = true := by
        cases hcheck : (c.opened g).checkSequence g with
        | false => exact .inl rfl
        | true =>
          have hack : (c.opened g).acknowledgment = c.acknowledgment := by rw [hopened]
          rw [checkSequence_iff (by rw [hack]; exact haway.1) (by rw [hack]; exact hle), hack]
            at hcheck
          cases hrst : g.has Flags.RST with
          | true => exact .inr (.inl rfl)
          | false => exact .inr (.inr (h hcheck (Nat.not_lt.mp hbeyond) hrst))
      have hstate : (c.opened g).state.receives = true := by
        rw [hopened]
        exact hs
      obtain ⟨hvalid, hdelivered, hack⟩ := handler_refuses ok hstate hrefuses
      obtain ⟨streamSignal, hfinish⟩ :=
        finish_eq ((c.opened g).handler ok g) c.state relevant g
      rw [hupdate, hfinish]
      dsimp only
      rw [hvalid, hdelivered, hack, hopened]
      exact ⟨rfl, rfl⟩

/-! ## Runs -/

/-- The stream goes on where it ended. -/
theorem matches_extend {n : Nat} {r : Connection}
    (h : c.delivered.map Prod.fst = List.range' start c.delivered.length)
    (hack : c.acknowledgment = start + c.delivered.length)
    (hr : r.delivered.map Prod.fst = c.delivered.map Prod.fst ++ List.range' c.acknowledgment n) :
    Matches start r ↔ r.acknowledgment = c.acknowledgment + n ∨
      r.state.ended = true ∧ r.acknowledgment = c.acknowledgment + n + 1 := by
  have hlen : r.delivered.length = c.delivered.length + n := by
    have hlength := congrArg List.length hr
    simpa using hlength
  have hrange : r.delivered.map Prod.fst = List.range' start r.delivered.length := by
    rw [hr, h, hack, hlen, List.range'_append_1]
  unfold Matches
  rw [hlen, ← Nat.add_assoc, ← hack, and_iff_right (hlen ▸ hrange)]

/-- A segment keeps the stream exactly if its data is acknowledged. -/
theorem matches_segment (ok : Bool) (h : Matches start c) (hs : c.state.receives = true)
    (haway : AwayFromWrap c g) :
    Matches start (c.update ok g) ↔ AcknowledgesData c (.segment ok g) := by
  -- in a state that takes data no `FIN` has been counted yet
  have hack : c.acknowledgment = start + c.delivered.length := by
    cases h.2 with
    | inl h => exact h
    | inr h => exact absurd h.1 (by simp [State.ended_of_receives hs])
  by_cases hpass : g.sequence = c.acknowledgment ∧ g.acknowledgment ≤ c.next ∧
      g.has Flags.RST = false ∧ g.has Flags.SYN = false
  · obtain ⟨hseq, hnext, hrst, hsyn⟩ := hpass
    obtain ⟨hnumbers, hdata, hfin, hother⟩ := update_passes ok hs haway hseq hnext hrst hsyn
    rw [matches_extend h.1 hack hnumbers]
    have hin : InOrder c g ↔ g.length ≠ 0 :=
      ⟨fun hin => hin.1, fun hlen => ⟨hlen, hseq, hnext, hrst, hsyn⟩⟩
    show _ ↔ (InOrder c g → _)
    rw [hin]
    by_cases hlen : g.length = 0
    · -- there is no data, and only a `FIN` counts
      rw [if_pos hlen, Nat.add_zero]
      refine ⟨fun _ hne => absurd hlen hne, fun _ => ?_⟩
      by_cases hacc : Accepts c g
      · cases hflag : g.has Flags.FIN with
        | false => exact .inl ((hdata hacc hflag).2.trans (by omega))
        | true => exact .inr (hfin hacc hflag)
      · exact .inl (hother hacc).2
    · rw [if_neg hlen]
      by_cases hacc : Accepts c g
      · cases hflag : g.has Flags.FIN with
        | false =>
          -- `RCV.NXT` advances by the length, so exactly that must be handed over
          obtain ⟨hreceives, hack'⟩ := hdata hacc hflag
          rw [State.ended_of_receives hreceives, hack']
          constructor
          · intro hend
            have heq : g.length = handed c g := by
              cases hend with
              | inl heq => exact Nat.add_left_cancel heq
              | inr hend => exact nomatch hend.1
            exact fun _ => ⟨fun _ _ => heq.symm, fun _ hfin => (nomatch hfin),
              fun hno => absurd hacc hno⟩
          · intro hcond
            exact .inl (congrArg (c.acknowledgment + ·) ((hcond hlen).1 hacc rfl).symm)
        | true =>
          -- with a `FIN` it advances by one, whatever the length is
          obtain ⟨hended, hack'⟩ := hfin hacc hflag
          rw [hended, hack']
          constructor
          · intro hend
            have hle : handed c g ≤ 1 := by omega
            exact fun _ => ⟨fun _ hno => (nomatch hno), fun _ _ => hle, fun hno => absurd hacc hno⟩
          · intro hcond
            have hle := (hcond hlen).2.1 hacc rfl
            by_cases hone : handed c g = 1
            · exact .inl (by rw [hone])
            · exact .inr ⟨rfl, by omega⟩
      · -- the data is not acknowledged, so nothing may be handed over
        obtain ⟨hreceives, hack'⟩ := hother hacc
        rw [State.ended_of_receives hreceives, hack']
        constructor
        · intro hend
          have hzero : handed c g = 0 := by
            cases hend with
            | inl heq => omega
            | inr hend => exact nomatch hend.1
          exact fun _ => ⟨fun h => absurd h hacc, fun h => absurd h hacc, fun _ => hzero⟩
        · intro hcond
          exact .inl (by rw [(hcond hlen).2.2 hacc]; rfl)
  · have hfails : g.sequence = c.acknowledgment → g.acknowledgment ≤ c.next →
        g.has Flags.RST = false → g.has Flags.SYN = true := by
      intro hseq hnext hrst
      cases hsyn : g.has Flags.SYN with
      | true => rfl
      | false => exact absurd ⟨hseq, hnext, hrst, hsyn⟩ hpass
    obtain ⟨hdelivered, hack'⟩ := update_fails ok hs haway hfails
    constructor
    · exact fun _ hin => absurd ⟨hin.2.1, hin.2.2⟩ hpass
    · intro _
      unfold Matches
      rw [hdelivered, hack']
      exact ⟨h.1, .inl hack⟩

/-- A step that neither delivers nor goes back behind the end of the data. -/
theorem Matches.keep {r : Connection} (h : Matches start c) (hd : r.delivered = c.delivered)
    (hack : r.acknowledgment = c.acknowledgment)
    (hs : c.state.ended = true → r.state.ended = true) : Matches start r := by
  unfold Matches
  rw [hd, hack]
  exact ⟨h.1, h.2.imp_right fun ⟨hr, heq⟩ => ⟨hs hr, heq⟩⟩

/-- `close()` delivers nothing. -/
theorem Matches.close (h : Matches start c) (ok : Bool) : Matches start (c.close ok).1 := by
  unfold Connection.close
  split
  · exact h
  · split
    · exact h.keep rfl rfl fun _ => rfl
    · dsimp only
      by_cases hopen : c.state = .ESTABLISHED ∨ c.state = .SYN_RECEIVED
      · rw [if_pos hopen]
        refine h.keep rfl rfl fun hended => ?_
        cases hopen with
        | inl hs => exact absurd hended (by simp [hs, State.ended])
        | inr hs => exact absurd hended (by simp [hs, State.ended])
      · rw [if_neg hopen]
        split
        · exact h.keep rfl rfl fun _ => rfl
        · exact h.keep rfl rfl id

/-- A timeout delivers nothing. -/
theorem Matches.timeout (h : Matches start c) (ok : Bool) : Matches start (c.timeout ok) := by
  unfold Connection.timeout
  dsimp only
  split
  · exact h.keep rfl rfl fun _ => rfl
  · split
    · exact h.keep rfl rfl fun _ => rfl
    · split
      · exact h.keep rfl rfl id
      · split
        · exact h.keep rfl rfl id
        · exact h.keep rfl rfl id

end

end TCP

open TCP

/-- Over a whole run the observer has exactly the bytes that have been acknowledged if and
    only if every segment with data that comes in order is taken when it is handed over. -/
theorem delivery_matches_iff (c : Connection) (as : List TCP.Action) (hc : delivery.Init c)
    (has : delivery.Valid c as) :
    delivery.Always (Matches c.acknowledgment) c as ↔ delivery.Meets AcknowledgesData c as := by
  have hstart : Matches c.acknowledgment c := by
    unfold Matches
    rw [hc.2]
    exact ⟨rfl, .inl rfl⟩
  apply TransitionSystem.always_iff_meets (I := fun _ => True) (fun _ _ _ _ => trivial) _
    trivial hstart has
  intro s a _ hs henabled
  cases a with
  | segment ok g => exact matches_segment ok hs henabled.1 henabled.2
  | alarm ok => exact ⟨fun _ => trivial, fun _ => hs.timeout ok⟩
  | close ok => exact ⟨fun _ => trivial, fun _ => hs.close ok⟩
  | write sequence next unacknowledged streaming retransmitting =>
    exact ⟨fun _ => trivial, fun _ => hs.keep rfl rfl id⟩

/-- A connection that has been accepted, at 1001 on this side and at 5000 on the other. -/
def acceptedConnection : Connection where
  fromPort := 80
  toPort := 1024
  sequence := 1000
  acknowledgment := 5000
  peer := fun _ => 10
  peerWindow := 4096
  next := 1001
  unacknowledged := 1000
  initial := 1000
  state := .ESTABLISHED

/-- The next byte of the peer. -/
def oneByte (flags : TCP.Flags) : Received where
  source := fun _ => 10
  fromPort := 1024
  toPort := 80
  sequence := 5000
  acknowledgment := 1001
  flags := flags
  window := 4096
  length := 1
  payload := [42]

/-- A byte with an `ACK` and the `FIN` behind it. -/
theorem delivery_matches_oneByte : delivery.Always (Matches 5000) acceptedConnection
    [.segment true (oneByte TCP.Flags.ACK), .close true,
      .segment true { oneByte (TCP.Flags.ACK ||| TCP.Flags.FIN) with
        sequence := 5001, length := 0, payload := [] }] :=
  (delivery_matches_iff acceptedConnection _ ⟨rfl, rfl⟩ (by decide)).mpr (by decide)

/-- Without an `ACK` the byte is handed over and not acknowledged. -/
theorem not_delivery_matches : ¬∀ (c : Connection) (as : List TCP.Action), delivery.Init c →
    delivery.Valid c as → delivery.Always (Matches c.acknowledgment) c as := by
  intro h
  have halways := h acceptedConnection [.segment true (oneByte 0)] ⟨rfl, rfl⟩ (by decide)
  have hmatches : Matches 5000 (acceptedConnection.update true (oneByte 0)) := halways.last
  rw [matches_segment true ⟨rfl, .inl rfl⟩ rfl (by decide)] at hmatches
  exact absurd hmatches (by decide)

end Epos
