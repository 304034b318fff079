import Epos.Spec.TcpDelivery

/-!
# Segments that are not acceptable

RFC 793 answers a segment outside the receive window, or one that acknowledges what has
not been sent, with an `ACK` at most. `update` looks at the acknowledgement before the
handlers look at the sequence number, and compares the numbers as they are, without the
wrap at 2^32.
-/

namespace Epos

namespace TCP

/-- `SEG.LEN`, which counts `SYN` and `FIN`. -/
def Received.segmentLength (g : Received) : Nat :=
  g.payload.length + (g.has Flags.SYN).toNat + (g.has Flags.FIN).toNat

namespace Connection

/-! ## Acceptability -/

/-- From `SYN_RECEIVED` on. -/
def Synchronised (c : Connection) : Prop :=
  c.state ≠ .LISTENING ∧ c.state ≠ .SYN_SENT ∧ c.state ≠ .CLOSED

/-- `RCV.NXT <= n < RCV.NXT + RCV.WND`, modulo 2^32. -/
def InWindow (c : Connection) (n : Nat) : Prop := subUnsigned n c.acknowledgment < WINDOW

/-- The test of the sequence number in RFC 793, for its four cases. -/
def SequenceAcceptable (c : Connection) (g : Received) : Prop :=
  if WINDOW = 0 then g.segmentLength = 0 ∧ g.sequence = c.acknowledgment
  else
    c.InWindow g.sequence ∨
      g.segmentLength ≠ 0 ∧ c.InWindow (g.sequence + (g.segmentLength - 1))

/-- `SEG.ACK > SND.NXT`, modulo 2^32. -/
def AcknowledgesUnsent (c : Connection) (g : Received) : Prop :=
  g.has Flags.ACK = true ∧ 0 < subUnsigned g.acknowledgment c.next ∧
    subUnsigned g.acknowledgment c.next < 2 ^ 31

def Unacceptable (c : Connection) (g : Received) : Prop :=
  ¬c.SequenceAcceptable g ∨ c.AcknowledgesUnsent g

/-- Neither the state nor `RCV.NXT`, `SND.NXT` and the observer have changed. -/
structure Undisturbed (c r : Connection) : Prop where
  state : r.state = c.state
  acknowledgment : r.acknowledgment = c.acknowledgment
  next : r.next = c.next
  delivered : r.delivered = c.delivered
  observer : r.observer = c.observer

/-- The data of a segment reaches an observer. -/
def Hands (c : Connection) (g : Received) : Prop :=
  c.observer = true ∧ g.length ≠ 0 ∧ g.payload ≠ []

/-- A segment with the number that is expected and a wrapped acknowledgement has nothing
    that its handler takes. -/
def HarmlessIn (c : Connection) (g : Received) : State → Prop
  | .ESTABLISHED =>
    (c.unacknowledged ≤ g.acknowledgment → g.has Flags.FIN = false ∧ g.length = 0) ∧ ¬c.Hands g
  | .FIN_WAIT1 | .FIN_WAIT2 => g.has Flags.FIN = false ∧ g.length = 0
  | .CLOSE_WAIT | .TIME_WAIT =>
    c.unacknowledged < g.acknowledgment → g.has Flags.FIN = false
  | .CLOSING | .LAST_ACK => True
  | _ => False

def Harmless (c : Connection) (g : Received) : Prop :=
  g.has Flags.RST = false ∧ g.has Flags.SYN = false ∧ (c.opened g).HarmlessIn g c.state

/-- The segment is too early, or it acknowledges a number up to `SND.NXT` and fails the
    test of its own number, or is harmless. -/
def Spared (c : Connection) (g : Received) : Prop :=
  c.Early g ∨
    g.acknowledgment ≤ c.next ∧
      (g.sequence ≠ c.acknowledgment ∨ 2 ^ 32 ≤ c.acknowledgment + WINDOW ∨ c.Harmless g)

variable {c r : Connection} {g : Received}

/-- The sequence number that is expected is acceptable. -/
theorem sequenceAcceptable_of_eq (h : g.sequence = c.acknowledgment) : c.SequenceAcceptable g := by
  unfold SequenceAcceptable
  rw [if_neg (by decide)]
  left
  unfold InWindow
  rw [h, subUnsigned_self]
  decide

/-- With the number that is expected, only the acknowledgement makes a segment unacceptable. -/
theorem Unacceptable.acknowledgesUnsent (h : c.Unacceptable g)
    (hseq : g.sequence = c.acknowledgment) : c.AcknowledgesUnsent g :=
  h.resolve_left fun hno => hno (sequenceAcceptable_of_eq hseq)

/-- What acknowledges unsent data is not the next number. -/
theorem AcknowledgesUnsent.ne (h : c.AcknowledgesUnsent g) : g.acknowledgment ≠ c.next := by
  intro heq
  have hpos := h.2.1
  rw [heq, subUnsigned_self] at hpos
  exact absurd hpos (by decide)

/-! ## The tests in `update` -/

/-- Near the wrap no number passes the test. -/
theorem checkSequence_wrapped (hwrap : 2 ^ 32 ≤ c.acknowledgment + WINDOW)
    (hlt : c.acknowledgment < 2 ^ 32) : c.checkSequence g = false := by
  have hwindow : WINDOW = 4096 := rfl
  have hend : (c.acknowledgment + WINDOW) % 2 ^ 32 = c.acknowledgment + WINDOW - 2 ^ 32 := by
    rw [Nat.mod_eq_sub_mod hwrap, Nat.mod_eq_of_lt (by omega)]
  have hnone (n : Nat) : ¬(c.acknowledgment ≤ n ∧ n < c.acknowledgment + WINDOW - 2 ^ 32) := by
    omega
  unfold checkSequence
  rw [if_neg (by decide)]
  simp only [hend]
  split
  · simp only [Bool.and_eq_false_iff, decide_eq_false_iff_not, ← not_and_or]
    exact hnone _
  · simp only [Bool.or_eq_false_iff, Bool.and_eq_false_iff, decide_eq_false_iff_not, ← not_and_or]
    exact ⟨hnone _, hnone _⟩

/-- The test of the source, for segments that are not in front. -/
theorem checkSequence_eq_true_iff (hlt : c.acknowledgment < 2 ^ 32)
    (hle : g.sequence ≤ c.acknowledgment) :
    c.checkSequence g = true ↔
      g.sequence = c.acknowledgment ∧ c.acknowledgment + WINDOW < 2 ^ 32 := by
  by_cases haway : c.acknowledgment + WINDOW < 2 ^ 32
  · rw [checkSequence_iff haway hle, and_iff_left haway]
  · rw [checkSequence_wrapped (Nat.not_lt.mp haway) hlt]
    exact iff_of_false nofun fun h => haway h.2

/-- The handlers from `syn_received()` to `time_wait()` begin in the same way. -/
theorem handler_eq_inSequence (ok : Bool) (g : Received) (hs : c.Synchronised) :
    ∃ invalidate body, c.handler ok g = c.inSequence ok invalidate g body := by
  obtain ⟨hlistening, hsynSent, hclosed⟩ := hs
  unfold handler
  cases hstate : c.state with
  | LISTENING => exact absurd hstate hlistening
  | SYN_SENT => exact absurd hstate hsynSent
  | CLOSED => exact absurd hstate hclosed
  | _ => exact ⟨_, _, rfl⟩

/-- A number that fails the test is answered with an `ACK` at most. -/
theorem handler_invalid (ok : Bool) (hs : c.Synchronised) (h : c.checkSequence g = false) :
    c.handler ok g =
      if g.has Flags.RST then { c with valid := false }
      else { c with valid := false }.fsend ok Flags.ACK := by
  obtain ⟨invalidate, body, heq⟩ := handler_eq_inSequence ok g hs
  rw [heq, inSequence_invalid ok h]

/-- `RST` and `SYN` close the connection. -/
theorem handler_aborts (ok : Bool) (hs : c.Synchronised) (hcheck : c.checkSequence g = true)
    (h : g.has Flags.RST = true ∨ g.has Flags.SYN = true) : (c.handler ok g).state = .CLOSED := by
  obtain ⟨invalidate, body, heq⟩ := handler_eq_inSequence ok g hs
  rw [heq]
  cases hrst : g.has Flags.RST with
  | true =>
    rw [inSequence_reset ok hcheck hrst]
    rfl
  | false =>
    rw [inSequence_syn ok hcheck hrst (h.resolve_left (by simp [hrst]))]
    rfl

/-- Neither `ACK` nor `RST` takes a sequence number. -/
theorem fsend_next (ok : Bool) {flags : Flags} (hfin : flags &&& Flags.FIN = 0)
    (hsyn : flags &&& Flags.SYN = 0) : (c.fsend ok flags).next = c.next := by
  unfold fsend
  simp [hfin, hsyn]

/-! ## A segment with the number that is expected -/

/-- What the handlers leave alone when they do not close the connection by their tests. -/
structure Kept (c r : Connection) : Prop where
  valid : r.valid = true
  next : r.next = c.next
  length : r.length = c.length
  delivered : r.delivered = c.delivered
  observer : r.observer = c.observer

/-- A notification delivers unless there is nobody or nothing to deliver to. -/
theorem notify_delivered_iff :
    (c.notify g).delivered = c.delivered ↔ ¬(c.observer = true ∧ g.payload ≠ []) := by
  unfold notify
  by_cases hobs : c.observer = true
  · simp [hobs]
  · simp [hobs]

/-- The end of `update()` keeps the state. -/
theorem finish_state (r : Connection) (state : State) (relevant : Bool) (g : Received) :
    (r.finish state relevant g).state = r.state := by
  obtain ⟨streamSignal, hfinish⟩ := finish_eq r state relevant g
  rw [hfinish]

/-- What is left to check when a handler has kept the rest. -/
theorem Kept.undisturbed_iff {state : State} {relevant : Bool} (h : c.Kept r)
    (hlen : c.length = g.length) : c.Undisturbed (r.finish state relevant g) ↔
      r.state = c.state ∧ r.acknowledgment = c.acknowledgment ∧
        (State.delivers state = true → ¬c.Hands g) := by
  obtain ⟨streamSignal, hfinish⟩ := finish_eq r state relevant g
  -- finish() passes data on just in the states that deliver, with data and a listening observer
  have hdelivered : (r.finish state relevant g).delivered = c.delivered ↔
      (State.delivers state = true → ¬c.Hands g) := by
    rw [hfinish, h.valid, h.length, hlen, ← h.delivered]
    have hnotify := notify_delivered_iff (c := r) (g := g)
    by_cases hd : State.delivers state = true
    · by_cases hzero : g.length = 0
      · simp [hd, hzero, Hands]
      · simp only [hd, Bool.true_and, bne_iff_ne, ne_eq, hzero, not_false_eq_true, ↓reduceIte,
          hnotify, h.observer, Hands, true_and, true_imp_iff]
    · simp [hd]
  constructor
  · intro hu
    refine ⟨?_, ?_, hdelivered.mp hu.delivered⟩
    · have hstate := hu.state
      rwa [hfinish] at hstate
    · have hack := hu.acknowledgment
      rwa [hfinish] at hack
  · rintro ⟨hstate, hack, hhands⟩
    refine ⟨?_, ?_, ?_, hdelivered.mpr hhands, ?_⟩
    · rw [hfinish]
      exact hstate
    · rw [hfinish]
      exact hack
    · rw [hfinish]
      exact h.next
    · rw [hfinish]
      exact h.observer

/-- Acknowledging data keeps the rest. -/
theorem acknowledgeData_kept (c : Connection) (ok : Bool) :
    c.Kept ({ c with valid := true }.acknowledgeData ok) := by
  unfold acknowledgeData
  split
  · exact ⟨rfl, fsend_next ok rfl rfl, rfl, rfl, rfl⟩
  · exact ⟨rfl, rfl, rfl, rfl, rfl⟩

/-- Signalling keeps the state. -/
theorem signal_state (c : Connection) : c.signal.state = c.state := rfl

/-- Acknowledging data keeps the state. -/
theorem acknowledgeData_state (c : Connection) (ok : Bool) :
    (c.acknowledgeData ok).state = c.state := by
  unfold acknowledgeData
  split <;> rfl

/-- The acknowledgment number is kept exactly if there is no data. -/
theorem acknowledgeData_acknowledgment_iff (ok : Bool) (hlt : c.acknowledgment < 2 ^ 32)
    (hlen : c.length < 2 ^ 32) :
    (c.acknowledgeData ok).acknowledgment = c.acknowledgment ↔ c.length = 0 := by
  unfold acknowledgeData
  by_cases hzero : c.length = 0
  · rw [if_neg (not_not.mpr hzero)]
    exact iff_of_true rfl hzero
  · rw [if_pos hzero]
    refine iff_of_false (fun heq => ?_) hzero
    have hsum : (c.acknowledgment + c.length) % 2 ^ 32 = c.acknowledgment := heq
    by_cases hwrap : c.acknowledgment + c.length < 2 ^ 32
    · rw [Nat.mod_eq_of_lt hwrap] at hsum
      omega
    · rw [Nat.mod_eq_sub_mod (Nat.not_lt.mp hwrap), Nat.mod_eq_of_lt (by omega)] at hsum
      omega

/-- A FIN keeps the rest. -/
theorem Kept.processFin (h : c.Kept r) (ok : Bool) : c.Kept (r.processFin ok g) where
  valid := h.valid
  next := (fsend_next ok rfl rfl).trans h.next
  length := h.length
  delivered := h.delivered
  observer := h.observer

/-- A change of the state keeps the rest. -/
theorem Kept.setState (h : c.Kept r) (state : State) : c.Kept (r.setState state) :=
  ⟨h.valid, h.next, h.length, h.delivered, h.observer⟩

/-- A FIN in sequence is acknowledged. -/
theorem processFin_acknowledgment_ne (ok : Bool) (hseq : g.sequence = c.acknowledgment) :
    (r.processFin ok g).acknowledgment ≠ c.acknowledgment := by
  intro heq
  have hsucc : (g.sequence + 1) % 2 ^ 32 = c.acknowledgment := heq
  have hmod := Nat.mod_lt (g.sequence + 1) (show 0 < 2 ^ 32 by decide)
  rw [← hseq] at hsucc
  rw [Nat.mod_def] at hsucc
  omega

/-- The connection and the segment that pass the tests, with an acknowledgement that is
    below `SND.NXT` and not acceptable. -/
structure Passes (c : Connection) (g : Received) : Prop where
  check : c.checkSequence g = true
  rst : g.has Flags.RST = false
  syn : g.has Flags.SYN = false
  ack : g.has Flags.ACK = true
  sequence : g.sequence = c.acknowledgment
  acknowledgment_lt : c.acknowledgment < 2 ^ 32
  length : c.length = g.length
  length_lt : g.length < 2 ^ 32
  below : g.acknowledgment < c.next

section

variable (h : c.Passes g) (ok relevant : Bool)
include h

/-- Data that the handler takes, and a `FIN` with which it goes to another state. -/
theorem Passes.data_undisturbed_iff {state : State} {r : Connection} (hstate : c.state = state)
    (hfin : r.state ≠ state) :
    c.Undisturbed ((if g.has Flags.FIN then r
      else { c with valid := true }.acknowledgeData ok).finish state relevant g) ↔
      g.has Flags.FIN = false ∧ g.length = 0 := by
  have hkept := acknowledgeData_kept c ok
  cases hflag : g.has Flags.FIN with
  | true =>
    rw [if_pos rfl]
    refine iff_of_false (fun hu => hfin ?_) (by simp)
    exact (finish_state r state relevant g).symm.trans (hu.state.trans hstate)
  | false =>
    have hdata := acknowledgeData_acknowledgment_iff (c := { c with valid := true }) ok
      h.acknowledgment_lt (h.length ▸ h.length_lt)
    rw [if_neg nofun, hkept.undisturbed_iff h.length]
    constructor
    · exact fun hu => ⟨rfl, h.length ▸ hdata.mp hu.2.1⟩
    · intro hzero
      have hlen : c.length = 0 := h.length.trans hzero.2
      exact ⟨acknowledgeData_state _ ok, hdata.mpr hlen, fun _ hhands => hhands.2.1 hzero.2⟩

/-- What disturbs an established connection. -/
theorem Passes.established_iff (hstate : c.state = .ESTABLISHED) :
    c.Undisturbed ((c.established ok g).finish .ESTABLISHED relevant g) ↔
      c.HarmlessIn g .ESTABLISHED := by
  have hle : g.acknowledgment ≤ c.next := Nat.le_of_lt h.below
  unfold established
  rw [inSequence_body ok h.check h.rst h.syn]
  dsimp only [HarmlessIn]
  by_cases hun : c.unacknowledged ≤ g.acknowledgment
  · rw [if_pos (by simp [h.ack, hun, hle]),
      h.data_undisturbed_iff ok relevant hstate]
    · constructor
      · exact fun hzero => ⟨fun _ => hzero, fun hhands => hhands.2.1 hzero.2⟩
      · exact fun hharmless => hharmless.1 hun
    · exact nofun
  · have hkept : c.Kept { c with valid := true } := ⟨rfl, rfl, rfl, rfl, rfl⟩
    rw [if_neg (by simp [hun]), hkept.undisturbed_iff h.length]
    constructor
    · exact fun hu => ⟨fun hno => absurd hno hun, hu.2.2 rfl⟩
    · exact fun hharmless => ⟨rfl, rfl, fun _ => hharmless.2⟩

/-- What disturbs one in `FIN_WAIT1`. -/
theorem Passes.finWait1_iff (hstate : c.state = .FIN_WAIT1) :
    c.Undisturbed ((c.finWait1 ok g).finish .FIN_WAIT1 relevant g) ↔
      c.HarmlessIn g .FIN_WAIT1 := by
  have hnext : ¬({ c with valid := true }.acknowledgeData ok).next ≤ g.acknowledgment := by
    rw [(acknowledgeData_kept c ok).next]
    exact Nat.not_le.mpr h.below
  unfold finWait1
  rw [inSequence_body ok h.check h.rst h.syn]
  dsimp only [HarmlessIn]
  rw [if_pos h.ack, if_neg hnext]
  exact h.data_undisturbed_iff ok relevant hstate nofun

/-- What disturbs one in `FIN_WAIT2`. -/
theorem Passes.finWait2_iff (hstate : c.state = .FIN_WAIT2) :
    c.Undisturbed ((c.finWait2 ok g).finish .FIN_WAIT2 relevant g) ↔
      c.HarmlessIn g .FIN_WAIT2 := by
  unfold finWait2
  rw [inSequence_body ok h.check h.rst h.syn]
  dsimp only [HarmlessIn]
  rw [if_pos h.ack]
  exact h.data_undisturbed_iff ok relevant hstate nofun

/-- In `SYN_RECEIVED` every segment that passes disturbs. -/
theorem Passes.synReceived (hstate : c.state = .SYN_RECEIVED) :
    ¬c.Undisturbed ((c.synReceived ok g).finish .SYN_RECEIVED relevant g) := by
  have hleaves : (c.synReceived ok g).state ≠ .SYN_RECEIVED := by
    unfold TCP.Connection.synReceived
    rw [inSequence_body ok h.check h.rst h.syn]
    dsimp only
    rw [if_pos h.ack]
    split
    · rw [signal_state, acknowledgeData_state]
      exact nofun
    · split <;> exact nofun
  intro hu
  exact hleaves ((finish_state _ _ relevant g).symm.trans (hu.state.trans hstate))

/-- A `FIN` that the handler takes if the acknowledgement is new. -/
theorem Passes.fin_undisturbed_iff {state : State} {r : Connection}
    (hdelivers : State.delivers state = false) (hkept : c.Kept r)
    (hsame : ¬(c.unacknowledged < g.acknowledgment ∧ g.has Flags.FIN = true) →
      r.state = c.state ∧ r.acknowledgment = c.acknowledgment)
    (hfin : c.unacknowledged < g.acknowledgment → g.has Flags.FIN = true →
      r.acknowledgment ≠ c.acknowledgment) :
    c.Undisturbed (r.finish state relevant g) ↔
      (c.unacknowledged < g.acknowledgment → g.has Flags.FIN = false) := by
  rw [hkept.undisturbed_iff h.length]
  constructor
  · intro hu hun
    cases hflag : g.has Flags.FIN with
    | false => rfl
    | true => exact absurd hu.2.1 (hfin hun hflag)
  · intro hno
    obtain ⟨hstate, hack⟩ := hsame fun hboth => by simp [hno hboth.1] at hboth
    exact ⟨hstate, hack, fun hd => by simp [hdelivers] at hd⟩

/-- What disturbs a connection in `CLOSE_WAIT`. -/
theorem Passes.closeWait_iff :
    c.Undisturbed ((c.closeWait ok g).finish .CLOSE_WAIT relevant g) ↔
      c.HarmlessIn g .CLOSE_WAIT := by
  have hle : g.acknowledgment ≤ c.next := Nat.le_of_lt h.below
  have hkept : c.Kept { c with valid := true } := ⟨rfl, rfl, rfl, rfl, rfl⟩
  have hkept' : c.Kept { c with valid := true, unacknowledged := g.acknowledgment } :=
    ⟨rfl, rfl, rfl, rfl, rfl⟩
  unfold closeWait
  rw [inSequence_body ok h.check h.rst h.syn]
  dsimp only [HarmlessIn]
  by_cases hun : c.unacknowledged < g.acknowledgment
  · rw [if_pos ⟨h.ack, hun, hle⟩]
    by_cases hflag : g.has Flags.FIN = true
    · rw [if_pos hflag]
      exact h.fin_undisturbed_iff relevant rfl (hkept'.processFin ok)
        (fun hno => absurd ⟨hun, hflag⟩ hno)
        fun _ _ => processFin_acknowledgment_ne ok h.sequence
    · rw [if_neg hflag]
      exact h.fin_undisturbed_iff relevant rfl hkept' (fun _ => ⟨rfl, rfl⟩)
        fun _ hyes => absurd hyes hflag
  · rw [if_neg fun hno => hun hno.2.1]
    exact h.fin_undisturbed_iff relevant rfl hkept (fun _ => ⟨rfl, rfl⟩)
      fun hyes => absurd hyes hun

/-- What disturbs one in `TIME_WAIT`. -/
theorem Passes.timeWait_iff :
    c.Undisturbed ((c.timeWait ok g).finish .TIME_WAIT relevant g) ↔
      c.HarmlessIn g .TIME_WAIT := by
  have hle : g.acknowledgment ≤ c.next := Nat.le_of_lt h.below
  have hkept : c.Kept { c with valid := true } := ⟨rfl, rfl, rfl, rfl, rfl⟩
  unfold timeWait
  rw [inSequence_body ok h.check h.rst h.syn]
  dsimp only [HarmlessIn]
  by_cases hboth : c.unacknowledged < g.acknowledgment ∧ g.has Flags.FIN = true
  · have hfin := hkept.processFin (g := g) ok
    have hkept' : c.Kept ({ c with valid := true }.processFin ok g).setTimeout :=
      ⟨hfin.valid, hfin.next, hfin.length, hfin.delivered, hfin.observer⟩
    rw [if_pos ⟨h.ack, hboth.1, hle, hboth.2⟩]
    exact h.fin_undisturbed_iff relevant rfl hkept' (fun hno => absurd hboth hno)
      fun _ _ => processFin_acknowledgment_ne (r := { c with valid := true }) ok h.sequence
  · rw [if_neg fun hno => hboth ⟨hno.2.1, hno.2.2.2⟩]
    exact h.fin_undisturbed_iff relevant rfl hkept (fun _ => ⟨rfl, rfl⟩)
      fun hun hflag => absurd ⟨hun, hflag⟩ hboth

/-- A `FIN` of ours is not acknowledged by what is below `SND.NXT`. -/
theorem Passes.not_finAcknowledged : ({ c with valid := true } : Connection).finAcknowledged g = false := by
  have hno : ¬c.next ≤ g.acknowledgment := Nat.not_le.mpr h.below
  simp [finAcknowledged, hno]

/-- Nothing disturbs a connection in `CLOSING`. -/
theorem Passes.closing_undisturbed :
    c.Undisturbed ((c.closing ok g).finish .CLOSING relevant g) := by
  have hkept : c.Kept { c with valid := true } := ⟨rfl, rfl, rfl, rfl, rfl⟩
  unfold closing
  rw [inSequence_body ok h.check h.rst h.syn]
  rw [h.not_finAcknowledged, if_neg nofun, hkept.undisturbed_iff h.length]
  exact ⟨rfl, rfl, nofun⟩

/-- Nothing disturbs a connection in `LAST_ACK`. -/
theorem Passes.lastAck_undisturbed :
    c.Undisturbed ((c.lastAck ok g).finish .LAST_ACK relevant g) := by
  have hkept : c.Kept { c with valid := true } := ⟨rfl, rfl, rfl, rfl, rfl⟩
  unfold lastAck
  rw [inSequence_body ok h.check h.rst h.syn]
  rw [h.not_finAcknowledged, if_neg nofun, hkept.undisturbed_iff h.length]
  exact ⟨rfl, rfl, nofun⟩

/-- The handlers of the synchronised states together. -/
theorem Passes.undisturbed_iff (hs : c.Synchronised) :
    c.Undisturbed ((c.handler ok g).finish c.state relevant g) ↔ c.HarmlessIn g c.state := by
  obtain ⟨hlistening, hsynSent, hclosed⟩ := hs
  unfold handler
  cases hstate : c.state with
  | LISTENING => exact absurd hstate hlistening
  | SYN_SENT => exact absurd hstate hsynSent
  | CLOSED => exact absurd hstate hclosed
  | SYN_RECEIVED => exact iff_of_false (h.synReceived ok relevant hstate) fun hno => hno
  | ESTABLISHED => exact h.established_iff ok relevant hstate
  | FIN_WAIT1 => exact h.finWait1_iff ok relevant hstate
  | FIN_WAIT2 => exact h.finWait2_iff ok relevant hstate
  | CLOSE_WAIT => exact h.closeWait_iff ok relevant
  | CLOSING => exact iff_of_true (h.closing_undisturbed ok relevant) trivial
  | LAST_ACK => exact iff_of_true (h.lastAck_undisturbed ok relevant) trivial
  | TIME_WAIT => exact h.timeWait_iff ok relevant

end

/-! ## Arrivals -/

/-- The first lines of `update` and the window change nothing that counts. -/
theorem undisturbed_of_opened : c.Undisturbed r ↔ (c.opened g).Undisturbed r := by
  obtain ⟨peer, toPort, hopened⟩ := opened_eq c g
  rw [hopened]
  exact ⟨fun h => ⟨h.state, h.acknowledgment, h.next, h.delivered, h.observer⟩,
    fun h => ⟨h.state, h.acknowledgment, h.next, h.delivered, h.observer⟩⟩

end Connection

open Connection

/-- A segment that is not acceptable leaves a synchronised connection alone exactly if the
    first test drops it, or the second does not find its acknowledgement too large and its
    number is not the expected one; the number is expected only together with an
    acknowledgement that has wrapped. -/
theorem undisturbed_iff_spared {c : Connection} {g : Received} (ok : Bool)
    (hs : c.Synchronised) (hack : c.acknowledgment < 2 ^ 32) (hlen : g.length < 2 ^ 32)
    (h : c.Unacceptable g) : c.Undisturbed (c.update ok g) ↔ c.Spared g := by
  by_cases hearly : c.Early g
  · obtain ⟨peer, toPort, harrive⟩ := arrive_eq c g
    rw [update_early ok hearly, harrive]
    exact iff_of_true ⟨rfl, rfl, rfl, rfl, rfl⟩ (.inl hearly)
  · by_cases hbeyond : c.next < g.acknowledgment
    · rw [update_beyond ok hearly hbeyond]
      refine iff_of_false (fun hu => hs.2.2 hu.state.symm) fun hspared => ?_
      cases hspared with
      | inl he => exact hearly he
      | inr hle => exact Nat.not_lt.mpr hle.1 hbeyond
    · have hle : g.acknowledgment ≤ c.next := Nat.not_lt.mp hbeyond
      have hseq : g.sequence ≤ c.acknowledgment :=
        Nat.not_lt.mp fun hlt => hearly ⟨fun hor => hor.elim hs.1 hs.2.1, hlt⟩
      obtain ⟨relevant, hupdate⟩ := update_handled ok hearly hbeyond
      obtain ⟨peer, toPort, hopened⟩ := opened_eq c g
      have hstate : (c.opened g).state = c.state := by rw [hopened]
      have hacknowledgment : (c.opened g).acknowledgment = c.acknowledgment := by rw [hopened]
      have hsynced : (c.opened g).Synchronised := by
        unfold Synchronised
        rw [hstate]
        exact hs
      have hcheck := checkSequence_eq_true_iff (c := c.opened g) (g := g)
        (hacknowledgment ▸ hack) (hacknowledgment ▸ hseq)
      rw [hacknowledgment] at hcheck
      rw [hupdate, undisturbed_of_opened (g := g), Spared, or_iff_right hearly, and_iff_right hle]
      cases hvalid : (c.opened g).checkSequence g with
      | false =>
        -- the number is not the expected one, or is too near to the wrap
        have hno : ¬(g.sequence = c.acknowledgment ∧ c.acknowledgment + WINDOW < 2 ^ 32) :=
          fun hyes => by simp [hcheck.mpr hyes] at hvalid
        refine iff_of_true ?_ ?_
        · rw [handler_invalid ok hsynced hvalid]
          split
          · exact ⟨rfl, rfl, rfl, rfl, rfl⟩
          · exact ⟨rfl, rfl, fsend_next ok rfl rfl, rfl, rfl⟩
        · by_cases heq : g.sequence = c.acknowledgment
          · exact .inr (.inl (Nat.not_lt.mp fun hlt => hno ⟨heq, hlt⟩))
          · exact .inl heq
      | true =>
        obtain ⟨heq, haway⟩ := hcheck.mp hvalid
        rw [or_iff_right (not_not.mpr heq), or_iff_right (Nat.not_le.mpr haway), Harmless]
        by_cases habort : g.has Flags.RST = true ∨ g.has Flags.SYN = true
        · have hclosed := handler_aborts ok hsynced hvalid habort
          refine iff_of_false (fun hu => hsynced.2.2 ?_) fun hharmless => ?_
          · exact hu.state.symm.trans ((finish_state _ _ relevant g).trans hclosed)
          · cases habort with
            | inl hrst => simp [hharmless.1] at hrst
            | inr hsyn => simp [hharmless.2.1] at hsyn
        · have hrst : g.has Flags.RST = false := by simpa using mt Or.inl habort
          have hsyn : g.has Flags.SYN = false := by simpa using mt Or.inr habort
          have hunsent := h.acknowledgesUnsent heq
          have hpasses : (c.opened g).Passes g :=
            { check := hvalid
              rst := hrst
              syn := hsyn
              ack := hunsent.1
              sequence := heq.trans hacknowledgment.symm
              acknowledgment_lt := hacknowledgment ▸ hack
              length := by rw [hopened]
              length_lt := hlen
              below := by
                have hne := hunsent.ne
                have hnext : (c.opened g).next = c.next := by rw [hopened]
                omega }
          rw [and_iff_right hrst, and_iff_right hsyn, ← hstate]
          exact hpasses.undisturbed_iff ok relevant hsynced

/-- Old data that arrives again. -/
def oldByte (acknowledgment : Nat) : Received :=
  { oneByte Flags.ACK with sequence := 800, acknowledgment := acknowledgment }

/-- A byte from before the window is not acceptable. -/
theorem oldByte_unacceptable (acknowledgment : Nat) :
    acceptedConnection.Unacceptable (oldByte acknowledgment) := by
  have hfar : ¬acceptedConnection.InWindow 800 := by
    unfold InWindow subUnsigned
    show ¬(800 + 2 ^ 32 - 5000) % 2 ^ 32 < 4096
    omega
  have hlength : (oldByte acknowledgment).segmentLength = 1 := by
    show (oneByte Flags.ACK).segmentLength = 1
    decide
  left
  unfold SequenceAcceptable
  rw [if_neg (by decide), hlength]
  exact fun hor => hor.elim hfar fun hlast => hfar hlast.2

/-- A byte from before the window at a connection that has been accepted. -/
theorem undisturbed_iff_spared_old :
    acceptedConnection.Undisturbed (acceptedConnection.update true (oldByte 1001)) ↔
      acceptedConnection.Spared (oldByte 1001) :=
  undisturbed_iff_spared true ⟨nofun, nofun, nofun⟩ (by decide) (by decide)
    (oldByte_unacceptable 1001)

/-- With an acknowledgement above `SND.NXT` it closes the connection. -/
theorem not_undisturbed : ¬∀ (c : Connection) (g : Received) (ok : Bool), c.Synchronised →
    c.acknowledgment < 2 ^ 32 → g.length < 2 ^ 32 → c.Unacceptable g →
      c.Undisturbed (c.update ok g) := by
  intro h
  have hu := h acceptedConnection (oldByte 2000) true ⟨nofun, nofun, nofun⟩ (by decide) (by decide)
    (oldByte_unacceptable 2000)
  have hclosed : (acceptedConnection.update true (oldByte 2000)).state = .CLOSED := by decide
  have hstate := hu.state
  rw [hclosed] at hstate
  cases hstate

end TCP

end Epos
