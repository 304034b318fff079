import Epos.ForStd.TransitionSystem
import Epos.Spec.TcpCorrect

/-!
# Signals of a transition

A thread that waits for `_transition` behind the end of its connection is stuck unless the
alarm signals it, which it does after three tries. Of the many ways into `CLOSED` only
three signal, and each of these wakes up one thread.
-/

namespace Epos

namespace TCP

open Connection

/-! ## Calls, segments and the alarm -/

/-- A connection with the threads that are between their call and its wait. -/
structure Calls where
  conn : Connection
  entering : List Wait := []

/-- A call up to its wait, the wait, and what a thread does once it has been woken up. -/
inductive Step where
  | listen
  | connect (ok : Bool)
  | close (ok : Bool)
  | wait (w : Wait)
  | proceed (ok : Bool) (w : Wait)
  | segment (ok : Bool) (g : Received)
  | alarm (ok : Bool)

/-- `_transition.wait()`. -/
def Connection.wait (c : Connection) (w : Wait) : Connection :=
  { c with waiting := c.waiting ++ [w] }

/-- A thread that has been signalled is no longer there. -/
def Connection.leave (c : Connection) (w : Wait) : Connection :=
  { c with woken := c.woken.erase w }

/-- Any order of calls, segments and alarms, from a connection that has been created. -/
def calls : TransitionSystem Calls Step where
  Init s := s.conn.state = .CLOSED ∧ s.conn.waiting = [] ∧ s.conn.woken = [] ∧ s.entering = []
  Enabled s a :=
    match a with
    | .wait w => w ∈ s.entering
    | .proceed _ w => w ∈ s.conn.woken
    | .alarm _ => s.conn.alarm = true
    | _ => True
  next s a :=
    match a with
    | .listen => { conn := s.conn.listen, entering := s.entering ++ [.listen] }
    | .connect ok => { conn := s.conn.connect ok, entering := s.entering ++ [.connect] }
    | .close ok =>
      { conn := (s.conn.close ok).1
        entering := if (s.conn.close ok).2 then s.entering ++ [.close] else s.entering }
    | .wait w => { conn := s.conn.wait w, entering := s.entering.erase w }
    | .proceed ok w =>
      if w = .listen then
        { conn := (s.conn.leave w).accept ok, entering := s.entering ++ [.accept] }
      else { s with conn := s.conn.leave w }
    | .segment ok g => { s with conn := s.conn.update ok g }
    | .alarm ok => { s with conn := s.conn.timeout ok }

/-- The alarm will signal in `CLOSED`. -/
def Connection.Rescued (c : Connection) : Prop := c.alarm = true ∧ c.tries = 3

/-- No thread waits for a transition that does not come. -/
def NoLostWakeUp (c : Connection) : Prop := c.waiting ≠ [] → c.state ≠ .CLOSED ∨ c.Rescued

/-- What closes the connection without a signal in the handler of a state. -/
def Connection.AbortsIn (c : Connection) (g : Received) : State → Prop
  | .LISTENING | .CLOSED => False
  | .SYN_SENT =>
    if g.has Flags.ACK then
      c.initial < g.acknowledgment ∧ g.acknowledgment ≤ c.next ∧
        c.unacknowledged ≤ g.acknowledgment ∧ g.has Flags.RST = true
    else g.has Flags.RST = true ∨ g.has Flags.SYN = false
  | .SYN_RECEIVED =>
    c.checkSequence g = true ∧ (g.has Flags.RST = true ∨ g.has Flags.SYN = true ∨
      g.has Flags.ACK = true ∧ g.has Flags.FIN = false ∧
        ¬(c.unacknowledged ≤ g.acknowledgment ∧ g.acknowledgment ≤ c.next))
  | _ => c.checkSequence g = true ∧ (g.has Flags.RST = true ∨ g.has Flags.SYN = true)

def Connection.Aborts (c : Connection) (g : Received) : Prop := c.AbortsIn g c.state

/-- `last_ack()` closes the connection with a signal. -/
def Connection.Finishes (c : Connection) (g : Received) : Prop :=
  c.state = .LAST_ACK ∧ c.checkSequence g = true ∧ g.has Flags.RST = false ∧
    g.has Flags.SYN = false ∧ c.finAcknowledged g = true

/-- No thread, or one that the alarm will signal. -/
def Connection.Settled (c : Connection) : Prop := c.waiting = [] ∨ c.Rescued

/-- What a step must meet to leave no thread behind. -/
def SignalsAll (s : Calls) (a : Step) : Prop :=
  match a with
  | .wait _ => s.conn.state ≠ .CLOSED ∨ s.conn.Rescued
  | .close _ => s.conn.state = .LISTENING ∨ s.conn.state = .SYN_SENT → s.conn.Settled
  | .segment _ g =>
    ¬s.conn.Early g →
      (s.conn.next < g.acknowledgment → s.conn.Settled) ∧
      (¬s.conn.next < g.acknowledgment →
        ((s.conn.opened g).Aborts g → s.conn.Settled) ∧
        ((s.conn.opened g).Finishes g → s.conn.waiting.length ≤ 1))
  | .alarm _ => s.conn.state = .TIME_WAIT ∨ s.conn.tries = 3 → s.conn.waiting.length ≤ 1
  | _ => True

instance (c : Connection) : Decidable c.Settled := inferInstanceAs (Decidable (_ ∨ _ ∧ _))

instance (c : Connection) (g : Received) : (s : State) → Decidable (c.AbortsIn g s)
  | .LISTENING | .CLOSED => inferInstanceAs (Decidable False)
  | .SYN_SENT =>
    inferInstanceAs (Decidable (if g.has Flags.ACK then
      c.initial < g.acknowledgment ∧ g.acknowledgment ≤ c.next ∧
        c.unacknowledged ≤ g.acknowledgment ∧ g.has Flags.RST = true
    else g.has Flags.RST = true ∨ g.has Flags.SYN = false))
  | .SYN_RECEIVED => inferInstanceAs (Decidable (_ ∧ _))
  | .ESTABLISHED | .FIN_WAIT1 | .FIN_WAIT2 | .CLOSE_WAIT | .CLOSING | .LAST_ACK | .TIME_WAIT =>
    inferInstanceAs (Decidable (_ ∧ _))

instance (c : Connection) (g : Received) : Decidable (c.Aborts g) :=
  inferInstanceAs (Decidable (c.AbortsIn g c.state))

instance (c : Connection) (g : Received) : Decidable (c.Finishes g) :=
  inferInstanceAs (Decidable (_ ∧ _))

instance : (s : Calls) → (a : Step) → Decidable (SignalsAll s a)
  | s, .wait _ => inferInstanceAs (Decidable (_ ∨ s.conn.alarm = true ∧ _))
  | _, .close _ | _, .segment _ _ | _, .alarm _ => inferInstanceAs (Decidable (_ → _))
  | _, .listen | _, .connect _ | _, .proceed _ _ => isTrue trivial

instance : (s : Calls) → (a : Step) → Decidable (calls.Enabled s a)
  | s, .wait w => inferInstanceAs (Decidable (w ∈ s.entering))
  | s, .proceed _ w => inferInstanceAs (Decidable (w ∈ s.conn.woken))
  | s, .alarm _ => inferInstanceAs (Decidable (s.conn.alarm = true))
  | _, .listen | _, .connect _ | _, .close _ | _, .segment _ _ => isTrue trivial

/-! ## The handlers -/

variable {c : Connection} {g : Received} {invalidate : Bool} {body : Connection → Connection}

/-- `r` is closed without a signal if `A` holds, with one if `F` does, and otherwise open. -/
structure Closes (A F : Prop) (c r : Connection) : Prop where
  aborts : A → r.state = .CLOSED ∧ r.waiting = c.waiting ∧ r.alarm = c.alarm ∧ r.tries = c.tries
  finishes : F → r.state = .CLOSED ∧ r.waiting = c.waiting.tail ∧ r.tries = 0
  keeps : ¬A → ¬F → r.state ≠ .CLOSED

variable {A F : Prop}

/-- A connection that does not close. -/
theorem Closes.never {r : Connection} (h : r.state ≠ .CLOSED) : Closes False False c r :=
  ⟨fun h => h.elim, fun h => h.elim, fun _ _ => h⟩

/-- A handler with the tests in front closes in them or behind them. -/
theorem inSequence_closes (ok : Bool) (hs : c.state ≠ .CLOSED)
    (hbody : Closes A F c (body { c with valid := true })) :
    Closes (c.checkSequence g = true ∧ (g.has Flags.RST = true ∨ g.has Flags.SYN = true ∨ A))
      (c.checkSequence g = true ∧ g.has Flags.RST = false ∧ g.has Flags.SYN = false ∧ F)
      c (c.inSequence ok invalidate g body) := by
  -- the checks come in this order: sequence number, RST, SYN, then the state's own part
  cases hcheck : c.checkSequence g with
  | false =>
    rw [inSequence_invalid ok hcheck]
    refine ⟨fun h => (nomatch h.1), fun h => (nomatch h.1), fun _ _ => ?_⟩
    split <;> exact hs
  | true =>
    cases hrst : g.has Flags.RST with
    | true =>
      rw [inSequence_reset ok hcheck hrst]
      exact ⟨fun _ => ⟨rfl, rfl, rfl, rfl⟩, fun h => (nomatch h.2.1),
        fun h _ => absurd ⟨rfl, .inl rfl⟩ h⟩
    | false =>
      cases hsyn : g.has Flags.SYN with
      | true =>
        rw [inSequence_syn ok hcheck hrst hsyn]
        exact ⟨fun _ => ⟨rfl, rfl, rfl, rfl⟩, fun h => (nomatch h.2.2.1),
          fun h _ => absurd ⟨rfl, .inr (.inl rfl)⟩ h⟩
      | false =>
        rw [inSequence_body ok hcheck hrst hsyn]
        refine ⟨fun h => hbody.aborts ?_, fun h => hbody.finishes h.2.2.2, fun h h' => ?_⟩
        · simpa using h.2
        · exact hbody.keeps (fun hA => h ⟨rfl, .inr (.inr hA)⟩) fun hF => h' ⟨rfl, rfl, rfl, hF⟩

/-- The reasons may be put in other words. -/
theorem Closes.congr {A' F' : Prop} {r : Connection} (h : Closes A F c r) (hA : A' ↔ A)
    (hF : F' ↔ F) : Closes A' F' c r :=
  ⟨fun h' => h.aborts (hA.mp h'), fun h' => h.finishes (hF.mp h'),
    fun h' h'' => h.keeps (mt hA.mpr h') (mt hF.mpr h'')⟩

/-- Acknowledging data keeps the state. -/
theorem acknowledgeData_state (c : Connection) (ok : Bool) :
    (c.acknowledgeData ok).state = c.state := by
  unfold acknowledgeData
  split <;> rfl

/-- Where nothing but `RST` and `SYN` closes the connection. -/
theorem inSequence_resets (ok : Bool) (hs : c.state ≠ .CLOSED) (hlast : c.state ≠ .LAST_ACK)
    (haborts : c.Aborts g ↔
      c.checkSequence g = true ∧ (g.has Flags.RST = true ∨ g.has Flags.SYN = true))
    (hbody : (body { c with valid := true }).state ≠ .CLOSED) :
    Closes (c.Aborts g) (c.Finishes g) c (c.inSequence ok invalidate g body) := by
  refine (inSequence_closes ok hs (.never hbody)).congr (haborts.trans ?_) ?_
  · rw [or_false]
  · exact ⟨fun h => absurd h.1 hlast, fun h => h.2.2.2.elim⟩

/-- When a segment closes a listening connection. -/
theorem listening_closes (ok : Bool) (hs : c.state = .LISTENING) :
    Closes (c.Aborts g) (c.Finishes g) c (c.listening ok g) := by
  have haborts : c.Aborts g ↔ False := by simp [Aborts, AbortsIn, hs]
  have hfinishes : c.Finishes g ↔ False := by simp [Finishes, hs]
  have hopen : c.state ≠ .CLOSED := by simp [hs]
  refine (Closes.never ?_).congr haborts hfinishes
  unfold listening
  split
  · exact hopen
  · split
    · exact hopen
    · split <;> exact hopen

/-- When it closes one in `SYN_SENT`. -/
theorem synSent_closes (ok : Bool) (hs : c.state = .SYN_SENT) :
    Closes (c.Aborts g) (c.Finishes g) c (c.synSent ok g) := by
  have hfinishes : ¬c.Finishes g := by simp [Finishes, hs]
  have hopen : c.state ≠ .CLOSED := by simp [hs]
  -- it never finishes here: it closes by aborting or not at all
  have hnever {r : Connection} (ha : ¬c.Aborts g) (h : r.state ≠ .CLOSED) :
      Closes (c.Aborts g) (c.Finishes g) c r :=
    (Closes.never h).congr (iff_false_intro ha) (iff_false_intro hfinishes)
  have halways {r : Connection} (ha : c.Aborts g) (h : r.state = .CLOSED ∧
      r.waiting = c.waiting ∧ r.alarm = c.alarm ∧ r.tries = c.tries) :
      Closes (c.Aborts g) (c.Finishes g) c r :=
    ⟨fun _ => h, fun hf => absurd hf hfinishes, fun hna => absurd ha hna⟩
  unfold synSent
  by_cases hack : g.has Flags.ACK = true
  · rw [if_pos hack]
    by_cases hbad : g.acknowledgment ≤ c.initial ∨ c.next < g.acknowledgment
    · rw [if_pos hbad]
      refine hnever ?_ hopen
      -- a wrong acknowledgement is answered with a `RST`, and the state stays
      simp only [Aborts, AbortsIn, hs, hack, if_true]
      omega
    · rw [if_neg hbad]
      by_cases hgood : c.unacknowledged ≤ g.acknowledgment ∧ g.acknowledgment ≤ c.next
      · rw [if_pos hgood]
        by_cases hrst : g.has Flags.RST = true
        · rw [if_pos hrst]
          refine halways ?_ ⟨rfl, rfl, rfl, rfl⟩
          simp only [Aborts, AbortsIn, hs, hack, if_true]
          exact ⟨by omega, hgood.2, hgood.1, hrst⟩
        · rw [if_neg hrst]
          have ha : ¬c.Aborts g := by simp [Aborts, AbortsIn, hs, hack, hrst]
          split
          · dsimp only
            split
            · exact hnever ha (by simp [signal, setState])
            · exact hnever ha (by simp [setState])
          · exact hnever ha hopen
      · rw [if_neg hgood]
        refine hnever ?_ hopen
        simp only [Aborts, AbortsIn, hs, hack, if_true]
        exact fun h => hgood ⟨h.2.2.1, h.2.1⟩
  · rw [if_neg hack]
    by_cases hsyn : (!g.has Flags.RST && g.has Flags.SYN) = true
    · rw [if_pos hsyn]
      refine hnever ?_ (by simp [setState])
      simp only [Bool.and_eq_true, Bool.not_eq_true'] at hsyn
      simp [Aborts, AbortsIn, hs, hack, hsyn]
    · rw [if_neg hsyn]
      refine halways ?_ ⟨rfl, rfl, rfl, rfl⟩
      simp only [Bool.and_eq_true, Bool.not_eq_true', not_and, Bool.not_eq_true] at hsyn
      simp only [Aborts, AbortsIn, hs, hack]
      cases hrst : g.has Flags.RST with
      | true => exact .inl rfl
      | false => exact .inr (hsyn hrst)

/-- When it closes one in `SYN_RECEIVED`. -/
theorem synReceived_closes (ok : Bool) (hs : c.state = .SYN_RECEIVED) :
    Closes (c.Aborts g) (c.Finishes g) c (c.synReceived ok g) := by
  have hopen : c.state ≠ .CLOSED := by simp [hs]
  have haborts : c.Aborts g ↔ c.checkSequence g = true ∧ (g.has Flags.RST = true ∨
      g.has Flags.SYN = true ∨ (g.has Flags.ACK = true ∧ g.has Flags.FIN = false ∧
        ¬(c.unacknowledged ≤ g.acknowledgment ∧ g.acknowledgment ≤ c.next))) := by
    simp only [Aborts, AbortsIn, hs]
  unfold synReceived
  refine (inSequence_closes (F := False) ok hopen ?_).congr haborts ?_
  · dsimp only
    by_cases hack : g.has Flags.ACK = true
    · rw [if_pos hack]
      -- an acknowledgment inside of the window establishes the connection
      by_cases hgood : c.unacknowledged ≤ g.acknowledgment ∧ g.acknowledgment ≤ c.next
      · rw [if_pos hgood]
        refine ⟨fun h => absurd hgood h.2.2, fun h => h.elim, fun _ _ => ?_⟩
        show (acknowledgeData _ ok).state ≠ .CLOSED
        rw [acknowledgeData_state]
        simp [setState]
      · -- one outside closes it unless FIN is set
        rw [if_neg hgood]
        by_cases hfin : g.has Flags.FIN = true
        · rw [if_pos hfin]
          refine ⟨fun h => ?_, fun h => h.elim, fun _ _ => by simp [setState]⟩
          exact absurd hfin (by simp [h.2.1])
        · rw [if_neg hfin]
          refine ⟨fun _ => ⟨rfl, rfl, rfl, rfl⟩, fun h => h.elim, fun h => ?_⟩
          exact absurd ⟨hack, Bool.not_eq_true _ ▸ hfin, hgood⟩ h
    · rw [if_neg hack]
      exact ⟨fun h => absurd h.1 hack, fun h => h.elim, fun _ _ => hopen⟩
  · exact ⟨fun h => absurd h.1 (by simp [hs]), fun h => h.2.2.2.elim⟩

/-- When it closes one in `LAST_ACK`. -/
theorem lastAck_closes (ok : Bool) (hs : c.state = .LAST_ACK) :
    Closes (c.Aborts g) (c.Finishes g) c (c.lastAck ok g) := by
  have hopen : c.state ≠ .CLOSED := by simp [hs]
  unfold lastAck
  refine (inSequence_closes (A := False) (F := c.finAcknowledged g = true) ok hopen ?_).congr
    ?_ ?_
  · have hsame : ({ c with valid := true } : Connection).finAcknowledged g =
        c.finAcknowledged g := rfl
    dsimp only
    rw [hsame]
    by_cases hfin : c.finAcknowledged g = true
    · rw [if_pos hfin]
      exact ⟨fun h => h.elim, fun _ => ⟨rfl, rfl, rfl⟩, fun _ h => absurd hfin h⟩
    · rw [if_neg hfin]
      exact ⟨fun h => h.elim, fun h => absurd h hfin, fun _ _ => hopen⟩
  · simp only [Aborts, AbortsIn, hs, or_false]
  · unfold Finishes
    rw [and_iff_right hs]

/-- How a handler leaves a connection that is open. -/
theorem handler_closes (ok : Bool) (hs : c.state ≠ .CLOSED) :
    Closes (c.Aborts g) (c.Finishes g) c (c.handler ok g) := by
  have hresets (hlast : c.state ≠ .LAST_ACK) (haborts : c.Aborts g ↔ c.checkSequence g = true ∧
      (g.has Flags.RST = true ∨ g.has Flags.SYN = true)) (body : Connection → Connection)
      (hbody : (body { c with valid := true }).state ≠ .CLOSED) :
      Closes (c.Aborts g) (c.Finishes g) c (c.inSequence ok true g body) :=
    inSequence_resets ok hs hlast haborts hbody
  have hdata : (({ c with valid := true } : Connection).acknowledgeData ok).state ≠ .CLOSED := by
    rw [acknowledgeData_state]
    exact hs
  -- in these states only `RST` and `SYN` close, whatever the body does
  unfold handler
  cases hstate : c.state with
  | LISTENING => exact listening_closes ok hstate
  | SYN_SENT => exact synSent_closes ok hstate
  | SYN_RECEIVED => exact synReceived_closes ok hstate
  | ESTABLISHED =>
    refine inSequence_resets ok hs (by simp [hstate]) (by simp only [Aborts, AbortsIn, hstate]) ?_
    dsimp only
    split
    · split
      · simp [setState]
      · exact hdata
    · exact hs
  | FIN_WAIT1 =>
    refine inSequence_resets ok hs (by simp [hstate]) (by simp only [Aborts, AbortsIn, hstate]) ?_
    dsimp only
    split
    · split
      · split <;> simp [setState, setTimeout]
      · split
        · simp [setState]
        · exact hdata
    · exact hs
  | FIN_WAIT2 =>
    refine inSequence_resets ok hs (by simp [hstate]) (by simp only [Aborts, AbortsIn, hstate]) ?_
    dsimp only
    split
    · split
      · simp [setState, setTimeout]
      · exact hdata
    · exact hs
  | CLOSE_WAIT =>
    refine inSequence_resets ok hs (by simp [hstate]) (by simp only [Aborts, AbortsIn, hstate]) ?_
    dsimp only
    split
    · split <;> exact hs
    · exact hs
  | CLOSING =>
    refine inSequence_resets ok hs (by simp [hstate]) (by simp only [Aborts, AbortsIn, hstate]) ?_
    split
    · simp [setState, setTimeout]
    · exact hs
  | LAST_ACK => exact lastAck_closes ok hstate
  | TIME_WAIT =>
    refine inSequence_resets ok hs (by simp [hstate]) (by simp only [Aborts, AbortsIn, hstate]) ?_
    dsimp only
    split <;> exact hs
  | CLOSED => exact absurd hstate hs

/-! ## One step -/

/-- Nobody is lost while nothing that matters changes. -/
theorem noLostWakeUp_of_same {r : Connection} (h : NoLostWakeUp c) (hs : r.state = c.state)
    (hw : r.waiting = c.waiting) (ha : r.alarm = c.alarm) (ht : r.tries = c.tries) :
    NoLostWakeUp r := by
  unfold NoLostWakeUp Rescued
  rw [hs, hw, ha, ht]
  exact h

/-- Nobody is lost while the connection is open. -/
theorem noLostWakeUp_of_open {r : Connection} (h : r.state ≠ .CLOSED) : NoLostWakeUp r :=
  fun _ => .inl h

/-- In `CLOSED` it depends on the alarm. -/
theorem noLostWakeUp_iff_settled {r : Connection} (h : r.state = .CLOSED) :
    NoLostWakeUp r ↔ r.Settled := by
  unfold NoLostWakeUp Settled
  constructor
  · intro hlost
    by_cases hw : r.waiting = []
    · exact .inl hw
    · exact .inr ((hlost hw).resolve_left (not_not.mpr h))
  · intro hsettled hw
    exact .inr (hsettled.resolve_left hw)

/-- What is settled only depends on the waiting threads and the timer. -/
theorem settled_congr {r : Connection} (hw : r.waiting = c.waiting) (ha : r.alarm = c.alarm)
    (ht : r.tries = c.tries) : r.Settled ↔ c.Settled := by
  unfold Settled Rescued
  rw [hw, ha, ht]

/-- One signal is enough for one thread. -/
theorem tail_eq_nil_iff {α : Type} {l : List α} : l.tail = [] ↔ l.length ≤ 1 := by
  cases l with
  | nil => simp
  | cons x xs => cases xs <;> simp

/-- A signal behind the end leaves no more than the thread that it wakes up. -/
theorem noLostWakeUp_signalled {r : Connection} (h : r.state = .CLOSED)
    (hw : r.waiting = c.waiting.tail) (hr : ¬r.Rescued) :
    NoLostWakeUp r ↔ c.waiting.length ≤ 1 := by
  rw [noLostWakeUp_iff_settled h, ← tail_eq_nil_iff, ← hw]
  exact ⟨fun hs => hs.resolve_right hr, .inl⟩

/-- A segment loses nobody exactly if it signals all. -/
theorem noLostWakeUp_update (ok : Bool) (h : NoLostWakeUp c) :
    NoLostWakeUp (c.update ok g) ↔ SignalsAll { conn := c } (.segment ok g) := by
  obtain ⟨peer, toPort, harrive⟩ := arrive_eq c g
  unfold SignalsAll
  dsimp only
  by_cases hearly : c.Early g
  · rw [update_early ok hearly, harrive]
    exact ⟨fun _ hno => absurd hearly hno, fun _ => h⟩
  · by_cases hbeyond : c.next < g.acknowledgment
    · -- an acknowledgement of what was not sent is answered, and closes the connection
      rw [update_beyond ok hearly hbeyond, noLostWakeUp_iff_settled rfl, harrive]
      constructor
      · exact fun hs _ => ⟨fun _ => hs, fun hno => absurd hbeyond hno⟩
      · exact fun hall => (hall hearly).1 hbeyond
    · obtain ⟨relevant, hupdate⟩ := update_handled ok hearly hbeyond
      obtain ⟨peer', toPort', hopened⟩ := opened_eq c g
      obtain ⟨streamSignal, hfinish⟩ :=
        finish_eq ((c.opened g).handler ok g) c.state relevant g
      have hfields : (c.opened g).state = c.state ∧ (c.opened g).waiting = c.waiting ∧
          (c.opened g).alarm = c.alarm ∧ (c.opened g).tries = c.tries := by
        rw [hopened]
        exact ⟨rfl, rfl, rfl, rfl⟩
      obtain ⟨hstate, hwaiting, halarm, htries⟩ := hfields
      -- behind the handler nothing is signalled that `write()` waits for
      have hrest : NoLostWakeUp (c.update ok g) ↔ NoLostWakeUp ((c.opened g).handler ok g) := by
        rw [hupdate, hfinish]
        exact Iff.rfl
      rw [hrest]
      have hiff : (¬c.Early g → (c.next < g.acknowledgment → c.Settled) ∧
          (¬c.next < g.acknowledgment → ((c.opened g).Aborts g → c.Settled) ∧
            ((c.opened g).Finishes g → c.waiting.length ≤ 1))) ↔
          ((c.opened g).Aborts g → c.Settled) ∧
            ((c.opened g).Finishes g → c.waiting.length ≤ 1) :=
        ⟨fun hall => (hall hearly).2 hbeyond, fun hall _ => ⟨fun hb => absurd hb hbeyond,
          fun _ => hall⟩⟩
      rw [hiff]
      by_cases hs : c.state = .CLOSED
      · -- `closed()` does nothing
        have hhandler : (c.opened g).handler ok g = c.opened g := by
          unfold handler
          rw [hstate, hs]
        rw [hhandler]
        have hnot : ¬(c.opened g).Aborts g ∧ ¬(c.opened g).Finishes g := by
          simp [Aborts, AbortsIn, Finishes, hstate, hs]
        exact ⟨fun _ => ⟨fun ha => absurd ha hnot.1, fun hf => absurd hf hnot.2⟩,
          fun _ => noLostWakeUp_of_same h hstate hwaiting halarm htries⟩
      · have hcloses : Closes ((c.opened g).Aborts g) ((c.opened g).Finishes g) (c.opened g)
            ((c.opened g).handler ok g) := handler_closes ok (by rw [hstate]; exact hs)
        by_cases ha : (c.opened g).Aborts g
        · obtain ⟨hclosed, hw, hal, htr⟩ := hcloses.aborts ha
          -- a segment either aborts or finishes
          have hf : ¬(c.opened g).Finishes g := by
            intro hf
            simp [Aborts, AbortsIn, hf.1, hf.2.2.1, hf.2.2.2.1] at ha
          rw [noLostWakeUp_iff_settled hclosed,
            settled_congr (hw.trans hwaiting) (hal.trans halarm) (htr.trans htries)]
          exact ⟨fun hset => ⟨fun _ => hset, fun hno => absurd hno hf⟩, fun hall => hall.1 ha⟩
        · by_cases hf : (c.opened g).Finishes g
          · obtain ⟨hclosed, hw, htr⟩ := hcloses.finishes hf
            have hr : ¬((c.opened g).handler ok g).Rescued := by simp [Rescued, htr]
            rw [noLostWakeUp_signalled hclosed (c := c) (hw.trans (by rw [hwaiting])) hr]
            exact ⟨fun hle => ⟨fun hno => absurd hno ha, fun _ => hle⟩, fun hall => hall.2 hf⟩
          · have hopen := hcloses.keeps ha hf
            exact ⟨fun _ => ⟨fun hno => absurd hno ha, fun hno => absurd hno hf⟩,
              fun _ => noLostWakeUp_of_open hopen⟩

/-- `close()` loses nobody exactly if all is settled where it closes at once. -/
theorem noLostWakeUp_close (ok : Bool) (h : NoLostWakeUp c) :
    NoLostWakeUp (c.close ok).1 ↔ (c.state = .LISTENING ∨ c.state = .SYN_SENT → c.Settled) := by
  unfold close
  by_cases hs : c.state = .CLOSED
  · rw [if_pos hs]
    exact ⟨fun _ hno => by simp [hs] at hno, fun _ => h⟩
  · rw [if_neg hs]
    by_cases hwait : c.state = .LISTENING ∨ c.state = .SYN_SENT
    · rw [if_pos hwait, noLostWakeUp_iff_settled rfl]
      exact ⟨fun hset _ => hset, fun hall => hall hwait⟩
    · rw [if_neg hwait]
      refine ⟨fun _ hno => absurd hno hwait, fun _ => noLostWakeUp_of_open ?_⟩
      dsimp only
      split
      · show State.FIN_WAIT1 ≠ .CLOSED
        decide
      · split
        · show State.LAST_ACK ≠ .CLOSED
          decide
        · exact hs

/-- A timeout loses nobody exactly if one thread waits at most. -/
theorem noLostWakeUp_timeout (ok : Bool) (h : NoLostWakeUp c) :
    NoLostWakeUp (c.timeout ok) ↔
      (c.state = .TIME_WAIT ∨ c.tries = 3 → c.waiting.length ≤ 1) := by
  unfold timeout
  dsimp only
  by_cases htime : c.state = .TIME_WAIT
  · rw [if_pos htime, noLostWakeUp_signalled (c := c) rfl rfl (by simp [Rescued, signal])]
    exact ⟨fun hle _ => hle, fun hall => hall (.inl htime)⟩
  · rw [if_neg htime]
    by_cases htries : c.tries = 3
    · rw [if_pos htries, noLostWakeUp_signalled (c := c) rfl rfl (by simp [Rescued, signal, setState])]
      exact ⟨fun hle _ => hle, fun hall => hall (.inr htries)⟩
    · rw [if_neg htries]
      refine ⟨fun _ hno => absurd hno (by simp [htime, htries]), fun _ => ?_⟩
      split
      · rename_i hstate
        apply noLostWakeUp_of_open
        show c.state ≠ .CLOSED
        rcases hstate with hs | hs | hs <;> simp [hs]
      · split
        · rename_i hstate
          apply noLostWakeUp_of_open
          show c.state ≠ .CLOSED
          simp [hstate]
        · -- in `CLOSED` nobody has been waiting for this alarm
          intro hw
          by_cases hs : c.state = .CLOSED
          · have hrescued := (h hw).resolve_left (not_not.mpr hs)
            exact absurd hrescued.2 htries
          · exact .inl hs

end TCP

open TCP

/-- No wake-up is lost over a whole run if and only if nobody is left waiting when the
    connection is closed, and nobody starts to wait when it has been. -/
theorem no_lost_wakeUp_iff (s : TCP.Calls) (as : List TCP.Step) (hs : calls.Init s)
    (has : calls.Valid s as) :
    calls.Always (fun s => NoLostWakeUp s.conn) s as ↔ calls.Meets SignalsAll s as := by
  have hstart : NoLostWakeUp s.conn := fun hw => absurd hs.2.1 hw
  apply TransitionSystem.always_iff_meets (I := fun _ => True)
    (P := fun s => NoLostWakeUp s.conn) (fun _ _ _ _ => trivial) _ trivial hstart has
  intro s a _ h henabled
  -- who waits is told by a close, by a segment or by the alarm; the other steps keep it open
  cases a with
  | listen =>
    have hopen : (calls.next s .listen).conn.state ≠ .CLOSED := nofun
    exact ⟨fun _ => trivial, fun _ => noLostWakeUp_of_open hopen⟩
  | connect ok =>
    have hopen : (calls.next s (.connect ok)).conn.state ≠ .CLOSED := nofun
    exact ⟨fun _ => trivial, fun _ => noLostWakeUp_of_open hopen⟩
  | close ok => exact noLostWakeUp_close ok h
  | wait w =>
    have hw : (s.conn.waiting ++ [w]) ≠ [] := by simp
    exact ⟨fun hlost => hlost hw, fun hopen _ => hopen⟩
  | proceed ok w =>
    refine ⟨fun _ => trivial, fun _ => ?_⟩
    by_cases hw : w = .listen
    · have hconn : (calls.next s (.proceed ok w)).conn = (s.conn.leave w).accept ok := by
        simp [calls, hw]
      rw [hconn]
      exact noLostWakeUp_of_open nofun
    · have hconn : (calls.next s (.proceed ok w)).conn = s.conn.leave w := by
        simp [calls, hw]
      rw [hconn]
      exact noLostWakeUp_of_same h rfl rfl rfl rfl
  | segment ok g => exact noLostWakeUp_update ok h
  | alarm ok => exact noLostWakeUp_timeout ok h

/-- A connection to a peer, at 1000 on this side. -/
def createdConnection : Connection where
  fromPort := 1024
  toPort := 80
  sequence := 1000
  peer := fun _ => 10
  next := 1000
  unacknowledged := 1000
  initial := 1000

/-- What the peer answers. -/
def answer (flags : TCP.Flags) : Received where
  source := fun _ => 10
  fromPort := 80
  toPort := 1024
  sequence := 5000
  acknowledgment := 1001
  flags := flags
  window := 4096
  length := 0
  payload := []

/-- `connect()` with an answer that signals. -/
theorem no_lost_wakeUp_connect :
    calls.Always (fun s => NoLostWakeUp s.conn) { conn := createdConnection }
      [.connect true, .wait .connect, .segment true (answer (TCP.Flags.SYN ||| TCP.Flags.ACK)),
        .proceed true .connect] :=
  (no_lost_wakeUp_iff { conn := createdConnection } _ ⟨rfl, rfl, rfl, rfl⟩ (by decide)).mpr
    (by decide)

/-- `connect()` waits for ever if the peer refuses the connection. -/
theorem lost_wakeUp :
    ¬∀ (s : TCP.Calls) (as : List TCP.Step), calls.Init s → calls.Valid s as →
      calls.Always (fun s => NoLostWakeUp s.conn) s as := by
  intro h
  have halways := h { conn := createdConnection }
    [.connect true, .wait .connect, .segment true (answer (TCP.Flags.RST ||| TCP.Flags.ACK))]
    ⟨rfl, rfl, rfl, rfl⟩ (by decide)
  have hlast := halways.last
  have hwaiting : (calls.run { conn := createdConnection } [.connect true, .wait .connect,
      .segment true (answer (TCP.Flags.RST ||| TCP.Flags.ACK))]).conn.waiting ≠ [] := by decide
  cases hlast hwaiting with
  | inl hopen => exact absurd rfl hopen
  | inr hrescued => exact absurd hrescued.2 (by decide)

end Epos
