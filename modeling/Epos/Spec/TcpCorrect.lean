import Epos.Network.Tcp

/-!
# Arrivals at a connection

What the handlers have in common: the test of the sequence number in front of them, and
what `update` does before and after them.
-/

namespace Epos

namespace TCP

namespace Connection

variable {c : Connection} {g : Received} {invalidate : Bool} {body : Connection → Connection}

/-! ## In front of a handler -/

/-- What a handler finds: the segment has arrived, and the window has been moved. -/
def opened (c : Connection) (g : Received) : Connection := ((c.arrive g).slide g).1

/-- The segment is in front of what is expected. -/
def Early (c : Connection) (g : Received) : Prop :=
  ¬(c.state = .LISTENING ∨ c.state = .SYN_SENT) ∧ c.acknowledgment < g.sequence

instance : Decidable (c.Early g) := inferInstanceAs (Decidable (_ ∧ _))

/-- While it listens, the connection takes the peer from the segment. -/
theorem arrive_eq (c : Connection) (g : Received) :
    ∃ peer toPort, c.arrive g =
      { c with
        current := some g
        length := g.length
        peerWindow := g.window
        peer := peer
        toPort := toPort } := by
  unfold arrive
  dsimp only
  split
  · exact ⟨g.source, g.fromPort, rfl⟩
  · exact ⟨c.peer, c.toPort, rfl⟩

/-- Moving the window changes `_sequence` and `_unacknowledged` only. -/
theorem slide_eq (c : Connection) (g : Received) :
    (c.slide g).1 =
      { c with
        sequence :=
          if c.streaming = true ∧ c.sequence < g.acknowledgment then g.acknowledgment
          else c.sequence
        unacknowledged := if c.streaming then g.acknowledgment else c.unacknowledged } := by
  unfold slide
  by_cases hs : c.streaming = true
  · rw [if_pos hs, if_pos hs]
    by_cases hle : g.acknowledgment ≤ c.sequence
    · rw [if_pos hle, if_neg (by omega)]
    · rw [if_neg hle, if_pos ⟨hs, by omega⟩]
  · rw [if_neg hs, if_neg hs, if_neg (mt And.left hs)]

theorem opened_eq (c : Connection) (g : Received) :
    ∃ peer toPort, c.opened g =
      { c with
        current := some g
        length := g.length
        peerWindow := g.window
        peer := peer
        toPort := toPort
        sequence :=
          if c.streaming = true ∧ c.sequence < g.acknowledgment then g.acknowledgment
          else c.sequence
        unacknowledged := if c.streaming then g.acknowledgment else c.unacknowledged } := by
  obtain ⟨peer, toPort, harrive⟩ := arrive_eq c g
  refine ⟨peer, toPort, ?_⟩
  unfold opened
  rw [slide_eq, harrive]

/-! ## Behind a handler -/

/-- What `update` does behind the handler, with the state that it was called in. -/
def finish (r : Connection) (state : State) (relevant : Bool) (g : Received) : Connection :=
  if !r.valid then r
  else
    let r := if State.delivers state && r.length != 0 then r.notify g else r
    if r.streaming && relevant then { r with streamSignal := true } else r

/-- Behind the handler, only the delivered bytes and the signal may change. -/
theorem finish_eq (r : Connection) (state : State) (relevant : Bool) (g : Received) :
    ∃ streamSignal, r.finish state relevant g =
      { r with
        delivered :=
          if r.valid && (State.delivers state && r.length != 0) then (r.notify g).delivered
          else r.delivered
        streamSignal := streamSignal } := by
  unfold finish
  by_cases hvalid : r.valid = true
  · -- the signal to a streaming reader is the only other field that is written
    have hsignal (q : Connection) : ∃ streamSignal,
        (if q.streaming && relevant then { q with streamSignal := true } else q) =
          { q with streamSignal := streamSignal } := by
      split
      · exact ⟨true, rfl⟩
      · exact ⟨q.streamSignal, rfl⟩
    by_cases hdeliver : (State.delivers state && r.length != 0) = true
    · obtain ⟨streamSignal, hs⟩ := hsignal (r.notify g)
      refine ⟨streamSignal, ?_⟩
      dsimp only
      rw [if_neg (by simp [hvalid]), if_pos hdeliver, hs, if_pos (by simp [hvalid, hdeliver])]
      unfold notify
      split <;> rfl
    · obtain ⟨streamSignal, hs⟩ := hsignal r
      refine ⟨streamSignal, ?_⟩
      dsimp only
      rw [if_neg (by simp [hvalid]), if_neg hdeliver, hs, if_neg (by simp [hdeliver])]
  · refine ⟨r.streamSignal, ?_⟩
    rw [if_pos (by simp [hvalid]), if_neg (by simp [hvalid])]

theorem update_early (ok : Bool) (h : c.Early g) : c.update ok g = c.arrive g := by
  obtain ⟨peer, toPort, harrive⟩ := arrive_eq c g
  unfold update
  rw [harrive]
  exact if_pos h

theorem update_beyond (ok : Bool) (h : ¬c.Early g) (hnext : c.next < g.acknowledgment) :
    c.update ok g = ((c.arrive g).fsend ok Flags.RST).setState .CLOSED := by
  obtain ⟨peer, toPort, harrive⟩ := arrive_eq c g
  unfold update
  rw [harrive]
  exact (if_neg h).trans (if_pos hnext)

theorem update_handled (ok : Bool) (h : ¬c.Early g) (hnext : ¬c.next < g.acknowledgment) :
    ∃ relevant, c.update ok g = ((c.opened g).handler ok g).finish c.state relevant g := by
  obtain ⟨peer, toPort, harrive⟩ := arrive_eq c g
  obtain ⟨peer', toPort', hopened⟩ := opened_eq c g
  have hstate : (c.opened g).state = c.state := by rw [hopened]
  refine ⟨((c.arrive g).slide g).2, ?_⟩
  have hbody : c.update ok g =
      ((c.opened g).handler ok g).finish (c.opened g).state ((c.arrive g).slide g).2 g := by
    unfold update opened
    rw [harrive]
    exact (if_neg h).trans (if_neg hnext)
  rw [hbody, hstate]

/-! ## The sequence test -/

theorem inSequence_invalid (ok : Bool) (h : c.checkSequence g = false) :
    c.inSequence ok invalidate g body =
      if g.has Flags.RST then { c with valid := false }
      else { c with valid := false }.fsend ok Flags.ACK := by
  simp [inSequence, h]

theorem inSequence_reset (ok : Bool) (h : c.checkSequence g = true) (hrst : g.has Flags.RST = true) :
    c.inSequence ok invalidate g body = { c with valid := !invalidate }.setState .CLOSED := by
  simp [inSequence, h, hrst]

theorem inSequence_syn (ok : Bool) (h : c.checkSequence g = true) (hrst : g.has Flags.RST = false)
    (hsyn : g.has Flags.SYN = true) : c.inSequence ok invalidate g body =
      ({ c with valid := !invalidate }.fsend ok Flags.RST).setState .CLOSED := by
  simp [inSequence, h, hrst, hsyn]

theorem inSequence_body (ok : Bool) (h : c.checkSequence g = true) (hrst : g.has Flags.RST = false)
    (hsyn : g.has Flags.SYN = false) :
    c.inSequence ok invalidate g body = body { c with valid := true } := by
  simp [inSequence, h, hrst, hsyn]

end Connection

end TCP

end Epos
