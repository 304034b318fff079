import Epos.ForStd.TransitionSystem
import Epos.Network.TcpWrite
import Epos.Spec.TcpCorrect

/-!
# Runs of calls of `write`

The calls on one connection, one after the other, with the segments that arrive
meanwhile, and what these leave of the fields that `write` works with.
-/

namespace Epos

namespace TCP

open Connection TCP.Flags

/-- A segment with data and where its data stands in that of the call. -/
structure Piece where
  offset : Nat
  segment : Sent

/-- A call that has begun at the sequence number `base`, with what it has sent. -/
structure Call extends Write where
  base : Nat
  log : List Piece := []

/-- A connection, the last call, and the highest acknowledgment that has arrived. -/
structure Writing where
  conn : Connection
  call : Option Call := none
  acked : Nat := 0

inductive Event where
  | write (d : Bytes) (size : Nat)
  | step (ok : Bool)
  | segment (ok : Bool) (g : Received)

/-- What the next statement sends. -/
def Call.piece (w : Call) (c : Connection) : Piece where
  offset := w.data
  segment := ⟨c.dsendStart, c.acknowledgment, ACK, (w.d.shift w.data).take w.payload⟩

/-- The next statement is `dsend`. -/
def Call.dsends (w : Call) (c : Connection) : Bool := w.point == .head && w.sends c

def Call.active (w : Call) : Bool :=
  match w.point with
  | .returned _ => false
  | _ => true

/-- The call that is in progress. -/
def Writing.running (s : Writing) : Option Call := s.call.filter Call.active

/-- A statement of a call, with what it sends. -/
def Writing.stepCall (s : Writing) (ok : Bool) (w : Call) : Writing :=
  { s with
    conn := (w.toWrite.step s.conn ok).1
    call := some
      { w with
        toWrite := (w.toWrite.step s.conn ok).2
        log := if ok && w.dsends s.conn then w.log ++ [w.piece s.conn] else w.log } }

def writes : TransitionSystem Writing Event where
  Init s := s.conn.state = .ESTABLISHED ∧ s.conn.current ≠ none ∧ s.call = none ∧
    s.acked = s.conn.currentAck
  Enabled s a :=
    match a with
    | .write _ size => s.running.isSome = false ∧ size < 2 ^ 32
    | .step _ => s.running.isSome = true
    | .segment _ g => g.acknowledgment < 2 ^ 32 ∧ g.sequence < 2 ^ 32 ∧ g.window < 2 ^ 16
  next s a :=
    match a with
    | .write d size =>
      { s with call := some { s.conn.write d size with base := s.conn.next } }
    | .step ok =>
      match s.call with
      | some w => s.stepCall ok w
      | none => s
    | .segment ok g =>
      { s with conn := s.conn.update ok g, acked := max s.acked g.acknowledgment }

instance : (s : Writing) → (a : Event) → Decidable (writes.Enabled s a)
  | s, .write _ size => inferInstanceAs (Decidable (s.running.isSome = false ∧ size < 2 ^ 32))
  | s, .step _ => inferInstanceAs (Decidable (s.running.isSome = true))
  | _, .segment _ g => inferInstanceAs (Decidable
      (g.acknowledgment < 2 ^ 32 ∧ g.sequence < 2 ^ 32 ∧ g.window < 2 ^ 16))

/-- A segment without data that acknowledges up to `ack`. -/
def ackOf (ack window : Nat) : Received where
  source := fun _ => 10
  fromPort := 80
  toPort := 1024
  sequence := 5001
  acknowledgment := ack
  flags := ACK
  window := window
  length := 0
  payload := []

variable {c r q : Connection} {g : Received} {w : Write} {ok invalidate : Bool}
  {body : Connection → Connection}

/-! ## The statements of a call -/

/-- The call that is running. -/
theorem mem_running {s : Writing} {w : Call} :
    w ∈ s.running ↔ s.call = some w ∧ w.active = true :=
  Option.mem_filter_iff

/-- A call that has returned is not running. -/
theorem not_running_of_returned {w : Call} {r : Option Nat} (h : w.point = .returned r)
    (s : Writing) : w ∉ s.running := by
  intro hrun
  have hactive := (mem_running.mp hrun).2
  unfold Call.active at hactive
  rw [h] at hactive
  cases hactive

/-- A step is taken by the call that is running. -/
theorem writes_step {s : Writing} (ok : Bool) (ha : writes.Enabled s (.step ok)) :
    ∃ w ∈ s.running, writes.next s (.step ok) = s.stepCall ok w := by
  obtain ⟨w, hw⟩ := Option.isSome_iff_exists.mp ha
  refine ⟨w, hw, ?_⟩
  show (match s.call with | some w => s.stepCall ok w | none => s) = _
  rw [(mem_running.mp hw).1]

/-- The connection behind a `dsend` of the loop. -/
def Write.sent (w : Write) (c : Connection) : Connection :=
  let r := { c with streaming := true }.dsend true (w.d.shift w.data) w.payload
  if r.sequence = r.next then { r with retransmitting := false } else r

/-- The loop is left when it does not continue. -/
theorem head_leave (ok : Bool) (h : w.continues c = false) : w.head c ok = w.leave c := by
  unfold Write.head
  rw [h]
  rfl

/-- When the head of the loop sends. -/
theorem sends_iff : w.sends c = true ↔
    w.continues c = true ∧ w.clipped ≠ 0 ∧ w.left ≠ 0 := by
  simp [Write.sends, and_assoc]

/-- A segment for which there is no buffer. -/
theorem head_fail (h : w.sends c = true) : w.head c false =
    ({ c with streaming := true }.dsend false (w.d.shift w.data) w.payload,
      { w with allowed := w.clipped, point := .returned none }) := by
  obtain ⟨hcontinues, hbody⟩ := sends_iff.mp h
  unfold Write.head
  rw [hcontinues]
  exact if_pos hbody

/-- A segment that is sent. -/
theorem head_send (h : w.sends c = true) : w.head c true =
    (w.sent c,
      { w with
        allowed := w.clipped
        data := w.data + w.payload
        left := w.left - w.payload
        point := .increment }) := by
  obtain ⟨hcontinues, hbody⟩ := sends_iff.mp h
  unfold Write.head
  rw [hcontinues]
  exact if_pos hbody

/-- Nothing may be sent, so the call waits. -/
theorem head_wait (ok : Bool) (hcontinues : w.continues c = true) (h : w.sends c = false) :
    w.head c ok =
      ({ c with streaming := true },
        { w with allowed := w.clipped, oldAck := c.currentAck, point := .entering }) := by
  have hbody : ¬(w.clipped ≠ 0 ∧ w.left ≠ 0) := by
    intro hbody
    rw [sends_iff.mpr ⟨hcontinues, hbody⟩] at h
    cases h
  unfold Write.head
  rw [hcontinues]
  exact if_neg hbody

/-- A payload is not more than what is allowed, a segment and what is left. -/
theorem payload_le (w : Write) :
    w.payload ≤ w.allowed ∧ w.payload ≤ mss ∧ w.payload ≤ w.left := by
  unfold Write.payload Write.clipped
  split <;> split <;> omega

/-- What is sent as new data moves `_next`, and `_sequence` otherwise. -/
structure Write.Sent (w : Write) (c r : Connection) : Prop where
  state : r.state = c.state
  current : r.current = c.current
  peerWindow : r.peerWindow = c.peerWindow
  fresh : c.retransmitting = false → r.sequence = c.next ∧
    r.next = (c.next + w.payload) % 2 ^ 32
  again : c.retransmitting = true → r.sequence = (c.sequence + w.payload) % 2 ^ 32 ∧
    r.next = c.next
  retransmitting : r.retransmitting = (c.retransmitting && r.sequence != r.next)
  sent : r.sent = c.sent ++
    [⟨c.dsendStart, c.acknowledgment, ACK, (w.d.shift w.data).take w.payload⟩]

/-- What sending changes. -/
theorem sent_spec (w : Write) (c : Connection) : w.Sent c (w.sent c) := by
  unfold Write.sent
  dsimp only
  split
  · rename_i heq
    refine ⟨rfl, rfl, rfl, fun hr => ?_, fun hr => ?_, ?_, rfl⟩
    · simp [dsend, dsendStart, hr]
    · simp [dsend, dsendStart, hr]
    · show false = (_ && _ != _)
      rw [heq]
      simp
  · rename_i hne
    refine ⟨rfl, rfl, rfl, fun hr => ?_, fun hr => ?_, ?_, rfl⟩
    · simp [dsend, dsendStart, hr]
    · simp [dsend, dsendStart, hr]
    · show c.retransmitting = (c.retransmitting && _ != _)
      rw [bne_iff_ne.mpr hne, Bool.and_true]

/-! ## What a segment changes -/

/-- The states in which segments arrive from `ESTABLISHED` on without a `close()`. -/
def State.written : State → Bool
  | .ESTABLISHED | .CLOSE_WAIT | .CLOSED => true
  | _ => false

/-- The handlers send nothing that has a number, and may set `_sequence` to `_next`. -/
structure SameSender (c r : Connection) : Prop where
  next : r.next = c.next
  current : r.current = c.current
  peerWindow : r.peerWindow = c.peerWindow
  streaming : r.streaming = c.streaming
  retransmitting : r.retransmitting = c.retransmitting
  sent : c.sent ⊆ r.sent
  sequence : r.sequence = c.sequence ∨ c.retransmitting = false ∧ r.sequence = c.next

/-- A change of other fields. -/
theorem SameSender.of_eq (hn : r.next = c.next) (hc : r.current = c.current)
    (hp : r.peerWindow = c.peerWindow) (hs : r.streaming = c.streaming)
    (hr : r.retransmitting = c.retransmitting) (hq : r.sequence = c.sequence)
    (ht : r.sent = c.sent) : SameSender c r :=
  ⟨hn, hc, hp, hs, hr, ht ▸ List.Subset.refl _, .inl hq⟩

theorem SameSender.refl (c : Connection) : SameSender c c := .of_eq rfl rfl rfl rfl rfl rfl rfl

theorem SameSender.trans (h : SameSender c r) (h' : SameSender r q) : SameSender c q where
  next := h'.next.trans h.next
  current := h'.current.trans h.current
  peerWindow := h'.peerWindow.trans h.peerWindow
  streaming := h'.streaming.trans h.streaming
  retransmitting := h'.retransmitting.trans h.retransmitting
  sent := List.Subset.trans h.sent h'.sent
  sequence := by
    cases h'.sequence with
    | inl heq => exact heq ▸ h.sequence
    | inr hnext => exact .inr ⟨h.retransmitting ▸ hnext.1, hnext.2.trans h.next⟩

/-- Sending an acknowledgment changes nothing for the sender. -/
theorem sameSender_fsend (c : Connection) (ok : Bool) {flags : Flags}
    (h : (flags &&& FIN != 0 || flags &&& SYN != 0) = false) :
    SameSender c (c.fsend ok flags) where
  next := by
    show (if ok && (flags &&& FIN != 0 || flags &&& SYN != 0) then _ else c.next) = c.next
    rw [h, Bool.and_false]
    rfl
  current := rfl
  peerWindow := rfl
  streaming := rfl
  retransmitting := rfl
  sent := by
    show c.sent ⊆ if ok then c.sent ++ _ else c.sent
    split
    · exact List.subset_append_left _ _
    · exact List.Subset.refl _
  sequence := by
    show (if c.retransmitting then c.sequence else c.next) = _ ∨
      _ ∧ (if c.retransmitting then c.sequence else c.next) = _
    cases hr : c.retransmitting with
    | true => exact .inl rfl
    | false => exact .inr ⟨rfl, rfl⟩

/-- Acknowledging data changes nothing for the sender. -/
theorem sameSender_acknowledgeData (c : Connection) (ok : Bool) :
    SameSender c (c.acknowledgeData ok) := by
  unfold acknowledgeData
  split
  · have hadvance : SameSender c c.advance := .of_eq rfl rfl rfl rfl rfl rfl rfl
    exact hadvance.trans (sameSender_fsend _ ok (by decide))
  · exact .refl c

/-- A FIN changes nothing for the sender. -/
theorem sameSender_processFin (c : Connection) (ok : Bool) (g : Received) :
    SameSender c (c.processFin ok g) := by
  have hack : SameSender c { c with acknowledgment := (g.sequence + 1) % 2 ^ 32 } :=
    .of_eq rfl rfl rfl rfl rfl rfl rfl
  exact hack.trans (sameSender_fsend _ ok (by decide))

/-- A change of the state changes nothing for the sender. -/
theorem sameSender_setState (c : Connection) (s : State) : SameSender c (c.setState s) :=
  .of_eq rfl rfl rfl rfl rfl rfl rfl

/-- Whether a segment was valid changes nothing for the sender. -/
theorem sameSender_valid (c : Connection) (v : Bool) : SameSender c { c with valid := v } :=
  .of_eq rfl rfl rfl rfl rfl rfl rfl

/-- A segment in sequence changes nothing for the sender. -/
theorem sameSender_inSequence (c : Connection) (ok : Bool) (g : Received)
    (hbody : SameSender { c with valid := true } (body { c with valid := true })) :
    SameSender c (c.inSequence ok invalidate g body) := by
  cases hcheck : c.checkSequence g with
  | false =>
    rw [inSequence_invalid ok hcheck]
    split
    · exact sameSender_valid c false
    · exact (sameSender_valid c false).trans (sameSender_fsend _ ok (by decide))
  | true =>
    cases hrst : g.has RST with
    | true =>
      rw [inSequence_reset ok hcheck hrst]
      exact (sameSender_valid c _).trans (sameSender_setState _ _)
    | false =>
      cases hsyn : g.has SYN with
      | true =>
        rw [inSequence_syn ok hcheck hrst hsyn]
        have hfsend := sameSender_fsend { c with valid := !invalidate } ok
          (show (RST &&& FIN != 0 || RST &&& SYN != 0) = false by decide)
        exact ((sameSender_valid c _).trans hfsend).trans (sameSender_setState _ _)
      | false =>
        rw [inSequence_body ok hcheck hrst hsyn]
        exact (sameSender_valid c true).trans hbody

/-- A segment in sequence keeps the state writable. -/
theorem inSequence_written (c : Connection) (ok : Bool) (g : Received)
    (hs : c.state.written = true)
    (hbody : (body { c with valid := true }).state.written = true) :
    (c.inSequence ok invalidate g body).state.written = true := by
  cases hcheck : c.checkSequence g with
  | false =>
    rw [inSequence_invalid ok hcheck]
    split <;> exact hs
  | true =>
    cases hrst : g.has RST with
    | true =>
      rw [inSequence_reset ok hcheck hrst]
      rfl
    | false =>
      cases hsyn : g.has SYN with
      | true =>
        rw [inSequence_syn ok hcheck hrst hsyn]
        rfl
      | false =>
        rw [inSequence_body ok hcheck hrst hsyn]
        exact hbody

/-- The handlers of these states. -/
theorem handler_writing (c : Connection) (ok : Bool) (g : Received)
    (hs : c.state.written = true) :
    SameSender c (c.handler ok g) ∧ (c.handler ok g).state.written = true ∧
      (c.state = .CLOSED → (c.handler ok g).state = .CLOSED) := by
  unfold handler
  -- only these three states send data or have sent it
  cases hstate : c.state with
  | ESTABLISHED =>
    refine ⟨sameSender_inSequence c ok g ?_, inSequence_written c ok g hs ?_, nofun⟩
    · dsimp only
      split
      · split
        · exact ((sameSender_acknowledgeData _ ok).trans (sameSender_processFin _ ok g)).trans
            (sameSender_setState _ _)
        · exact sameSender_acknowledgeData _ ok
      · exact .refl _
    · dsimp only
      split
      · split
        · rfl
        · unfold acknowledgeData
          split <;> exact hs
      · exact hs
  | CLOSE_WAIT =>
    refine ⟨sameSender_inSequence c ok g ?_, inSequence_written c ok g hs ?_, nofun⟩
    · dsimp only
      split
      · have hack : SameSender { c with valid := true }
            { c with valid := true, unacknowledged := g.acknowledgment } :=
          .of_eq rfl rfl rfl rfl rfl rfl rfl
        split
        · exact hack.trans (sameSender_processFin _ ok g)
        · exact hack
      · exact .refl _
    · dsimp only
      split
      · split <;> exact hs
      · exact hs
  | CLOSED => exact ⟨.refl c, hs, fun _ => hstate⟩
  | _ => rw [hstate] at hs; cases hs

/-- The `_sequence` that a segment leaves. -/
def Advances (c : Connection) (g : Received) (sequence : Nat) : Prop :=
  sequence = c.sequence ∨ c.retransmitting = false ∧ sequence = c.next ∨
    c.streaming = true ∧ ¬c.Early g ∧ g.acknowledgment ≤ c.next ∧
      c.sequence < g.acknowledgment ∧ sequence = g.acknowledgment

/-- What `update` leaves of the sender. -/
structure Received.Updates (g : Received) (c r : Connection) : Prop where
  next : r.next = c.next
  current : r.current = some g
  peerWindow : r.peerWindow = g.window
  streaming : r.streaming = c.streaming
  retransmitting : r.retransmitting = c.retransmitting
  sent : c.sent ⊆ r.sent
  sequence : Advances c g r.sequence
  written : r.state.written = true
  closed : c.state = .CLOSED → r.state = .CLOSED
  beyond : ¬c.Early g → c.next < g.acknowledgment → r.state = .CLOSED

/-- What a segment changes for the sender. -/
theorem update_writing (ok : Bool) (hs : c.state.written = true) :
    g.Updates c (c.update ok g) := by
  obtain ⟨peer, toPort, harrive⟩ := arrive_eq c g
  by_cases hearly : c.Early g
  · rw [update_early ok hearly, harrive]
    exact ⟨rfl, rfl, rfl, rfl, rfl, List.Subset.refl _, .inl rfl, hs, id,
      fun hno => absurd hearly hno⟩
  · by_cases hbeyond : c.next < g.acknowledgment
    · have hsame := sameSender_fsend (c.arrive g) ok
        (show (RST &&& FIN != 0 || RST &&& SYN != 0) = false by decide)
      rw [update_beyond ok hearly hbeyond]
      rw [harrive] at hsame ⊢
      refine ⟨hsame.next, rfl, rfl, rfl, rfl, hsame.sent, ?_, rfl, fun _ => rfl, fun _ _ => rfl⟩
      exact hsame.sequence.imp id .inl
    · obtain ⟨relevant, hupdate⟩ := update_handled ok hearly hbeyond
      obtain ⟨streamSignal, hfinish⟩ :=
        finish_eq ((c.opened g).handler ok g) c.state relevant g
      obtain ⟨peer', toPort', hopened⟩ := opened_eq c g
      have hstate : (c.opened g).state = c.state := by rw [hopened]
      obtain ⟨hsame, hwritten, hclosed⟩ :=
        handler_writing (c.opened g) ok g (by rw [hstate]; exact hs)
      rw [hupdate, hfinish]
      rw [hstate] at hclosed
      -- the sequence number moves by the window of a stream, or as the handler sends
      have hadvances : Advances c g ((c.opened g).handler ok g).sequence := by
        have hsequence := hsame.sequence
        rw [hopened] at hsequence ⊢
        cases hsequence with
        | inl heq =>
          unfold Advances
          rw [heq]
          dsimp only
          by_cases hslide : c.streaming = true ∧ c.sequence < g.acknowledgment
          · rw [if_pos hslide]
            exact .inr (.inr ⟨hslide.1, hearly, Nat.not_lt.mp hbeyond, hslide.2, rfl⟩)
          · rw [if_neg hslide]
            exact .inl rfl
        | inr heq => exact .inr (.inl heq)
      rw [hopened] at hsame
      refine ⟨?_, ?_, ?_, ?_, ?_, ?_, hadvances, hwritten, hclosed, fun _ h => absurd h hbeyond⟩
      all_goals
        rw [hopened]
      · exact hsame.next
      · exact hsame.current
      · exact hsame.peerWindow
      · exact hsame.streaming
      · exact hsame.retransmitting
      · exact hsame.sent

end TCP

end Epos
