import Epos.Spec.TcpWriteRuns

/-!
# The window of the peer

What `write` may send is counted from the number of the last segment, not from its end,
and the first segment is not counted at all. So the window is respected as long as it
does not fill up and its right edge does not come back behind what has been sent.
-/

namespace Epos

namespace TCP

open Connection

variable {s : Writing} {a : Event} {c : Connection} {g : Received} {w : Call}

/-- What has been sent is inside the window that has been advertised last. -/
def Connection.Inside (c : Connection) : Prop :=
  c.sequence ≤ c.currentAck + c.peerWindow ∧ c.next ≤ c.currentAck + c.peerWindow ∧
    c.currentAck + c.peerWindow < 2 ^ 32

/-- The window has room for a whole segment or for all that is left, or the allowance is up
    to date and counts from where the segment begins. -/
def HasRoom (c : Connection) (w : Call) : Prop :=
  c.dsendStart + min mss w.left ≤ c.currentAck + c.peerWindow ∨
    w.allowed = c.allowance ∧ c.dsendStart = c.sequence

/-- A call begins inside the window, the peer does not take back what it has advertised
    during the call, and there is room for what is sent. -/
def PeerRoom (s : Writing) (a : Event) : Prop :=
  match a with
  | .write _ _ => s.conn.Inside
  | .segment _ g => ∀ w ∈ s.running,
    s.conn.sequence ≤ g.acknowledgment + g.window ∧ s.conn.next ≤ g.acknowledgment + g.window ∧
      g.acknowledgment + g.window < 2 ^ 32
  | .step _ => ∀ w ∈ s.running, w.dsends s.conn = true → HasRoom s.conn w

/-- Of the new data that is sent, the bytes that have not been acknowledged fit the window,
    and the allowance is not computed below zero. -/
def RespectsWindow (s : Writing) (a : Event) : Prop :=
  match a with
  | .step _ => ∀ w ∈ s.running,
    (w.dsends s.conn = true → s.conn.next < s.conn.dsendStart + w.payload →
      s.conn.dsendStart + w.payload ≤ s.acked + s.conn.peerWindow) ∧
    (w.point = .increment → s.conn.sequence ≤ s.conn.currentAck + s.conn.peerWindow)
  | _ => True

instance (c : Connection) : Decidable c.Inside := inferInstanceAs (Decidable (_ ∧ _))

instance (c : Connection) (w : Call) : Decidable (HasRoom c w) :=
  inferInstanceAs (Decidable (_ ∨ _ ∧ _))

instance : (s : Writing) → (a : Event) → Decidable (PeerRoom s a)
  | s, .write _ _ => inferInstanceAs (Decidable s.conn.Inside)
  | s, .segment _ g => inferInstanceAs (Decidable (∀ w ∈ s.running,
      s.conn.sequence ≤ g.acknowledgment + g.window ∧ s.conn.next ≤ g.acknowledgment + g.window ∧
        g.acknowledgment + g.window < 2 ^ 32))
  | s, .step _ => inferInstanceAs (Decidable (∀ w ∈ s.running, w.dsends s.conn = true →
      HasRoom s.conn w))

/-- What holds during a run. -/
structure Bounded (s : Writing) : Prop where
  written : s.conn.state.written = true
  acked : s.conn.currentAck ≤ s.acked
  inside : ∀ w ∈ s.running, s.conn.Inside

theorem allowance_eq (h : c.Inside) :
    c.allowance = c.currentAck + c.peerWindow - c.sequence := by
  obtain ⟨hseq, -, hedge⟩ := h
  unfold allowance subUnsigned
  omega

/-- A payload for which there is room ends inside the window. -/
theorem payload_inside (h : c.Inside) (hroom : HasRoom c w) :
    c.dsendStart + w.payload ≤ c.currentAck + c.peerWindow := by
  obtain ⟨hallowed, hmss, hleft⟩ := payload_le w.toWrite
  cases hroom with
  | inl hroom => omega
  | inr hroom =>
    obtain ⟨hfresh, hstart⟩ := hroom
    have hseq := h.1
    rw [allowance_eq h] at hfresh
    omega

theorem Inside.sent (h : c.Inside) (hroom : HasRoom c w) {r : Connection}
    (hs : w.toWrite.Sent c r) : r.Inside := by
  have hpayload := payload_inside h hroom
  obtain ⟨hseq, hnext, hedge⟩ := h
  have hack : r.currentAck = c.currentAck := by
    unfold currentAck
    rw [hs.current]
  unfold Inside
  rw [hack, hs.peerWindow]
  unfold dsendStart at hpayload
  cases hr : c.retransmitting with
  | false =>
    obtain ⟨hseq', hnext'⟩ := hs.fresh hr
    rw [hr] at hpayload
    simp only [Bool.false_eq_true, if_false] at hpayload
    rw [hseq', hnext']
    omega
  | true =>
    obtain ⟨hseq', hnext'⟩ := hs.again hr
    rw [hr] at hpayload
    simp only [if_true] at hpayload
    rw [hseq', hnext']
    omega

/-- A statement of a call stays inside the window. -/
theorem Bounded.step (h : Bounded s) (ok : Bool) (hw : w ∈ s.running)
    (hroom : w.dsends s.conn = true → HasRoom s.conn w) : Bounded (s.stepCall ok w) := by
  have hinside := h.inside w hw
  -- what is left to show of a step
  suffices hstep : (s.stepCall ok w).conn.state = s.conn.state ∧
      (s.stepCall ok w).conn.current = s.conn.current ∧
      ((∃ v, v ∈ (s.stepCall ok w).running) → (s.stepCall ok w).conn.Inside) by
    obtain ⟨hstate, hcurrent, hin⟩ := hstep
    have hacked := h.acked
    refine ⟨by rw [hstate]; exact h.written, ?_, fun v hv => hin ⟨v, hv⟩⟩
    unfold currentAck at hacked ⊢
    rw [hcurrent]
    exact hacked
  have hended {r : Option Nat} (h : (w.toWrite.step s.conn ok).2.point = .returned r) :
      ¬∃ v, v ∈ (s.stepCall ok w).running := by
    intro ⟨v, hv⟩
    have hcall := Option.some.inj (mem_running.mp hv).1
    refine not_running_of_returned (w := v) (r := r) ?_ _ hv
    rw [← hcall]
    exact h
  have hconn : (s.stepCall ok w).conn = (w.toWrite.step s.conn ok).1 := rfl
  rw [hconn]
  cases hpoint : w.point with
  | head =>
    have hstep : w.toWrite.step s.conn ok = w.toWrite.head s.conn ok := by
      unfold Write.step
      rw [hpoint]
    cases hcontinues : w.toWrite.continues s.conn with
    | false =>
      have heq := hstep.trans (head_leave ok hcontinues)
      have hreturned := hended (congrArg (·.2.point) heq)
      rw [heq]
      exact ⟨rfl, rfl, fun hrun => absurd hrun hreturned⟩
    | true =>
      cases hsends : w.toWrite.sends s.conn with
      | false =>
        rw [hstep, head_wait ok hcontinues hsends]
        exact ⟨rfl, rfl, fun _ => hinside⟩
      | true =>
        cases ok with
        | false =>
          have heq := hstep.trans (head_fail hsends)
          have hreturned := hended (congrArg (·.2.point) heq)
          rw [heq]
          exact ⟨rfl, rfl, fun hrun => absurd hrun hreturned⟩
        | true =>
          have hsent := sent_spec w.toWrite s.conn
          have hdsends : w.dsends s.conn = true := by simp [Call.dsends, hpoint, hsends]
          rw [hstep, head_send hsends]
          exact ⟨hsent.state, hsent.current, fun _ => Inside.sent hinside (hroom hdsends) hsent⟩
  | increment =>
    have hstep : w.toWrite.step s.conn ok = (s.conn, w.toWrite.increment s.conn) := by
      unfold Write.step
      rw [hpoint]
    rw [hstep]
    exact ⟨rfl, rfl, fun _ => hinside⟩
  | entering =>
    have hstep : (w.toWrite.step s.conn ok).1 = s.conn := by
      unfold Write.step
      rw [hpoint]
    rw [hstep]
    exact ⟨rfl, rfl, fun _ => hinside⟩
  | blocked =>
    have hstep : (w.toWrite.step s.conn ok).1 = s.conn := by
      unfold Write.step
      rw [hpoint]
    rw [hstep]
    exact ⟨rfl, rfl, fun _ => hinside⟩
  | woken =>
    have hstep : w.toWrite.step s.conn ok = w.toWrite.wake s.conn := by
      unfold Write.step
      rw [hpoint]
    rw [hstep]
    unfold Write.wake
    split
    · exact ⟨rfl, rfl, fun _ => ⟨Nat.le_add_right _ _, hinside.2⟩⟩
    · exact ⟨rfl, rfl, fun _ => hinside⟩
  | returned r => exact absurd hw (not_running_of_returned hpoint s)

/-- A segment stays inside the window unless it takes back some of it. -/
theorem Bounded.segment (h : Bounded s) (ok : Bool) (hg : PeerRoom s (.segment ok g)) :
    Bounded (writes.next s (.segment ok g)) := by
  have hupdate : g.Updates s.conn (s.conn.update ok g) := update_writing ok h.written
  have hack : (s.conn.update ok g).currentAck = g.acknowledgment := by
    unfold currentAck
    rw [hupdate.current]
  refine ⟨hupdate.written, ?_, fun w hw => ?_⟩
  · show (s.conn.update ok g).currentAck ≤ max s.acked g.acknowledgment
    rw [hack]
    exact Nat.le_max_right _ _
  · obtain ⟨hseq, hnext, hedge⟩ := hg w hw
    show (s.conn.update ok g).Inside
    unfold Inside
    rw [hack, hupdate.peerWindow, hupdate.next]
    refine ⟨?_, hnext, hedge⟩
    rcases hupdate.sequence with heq | ⟨-, heq⟩ | ⟨-, -, -, -, heq⟩
    · exact heq ▸ hseq
    · exact heq ▸ hnext
    · exact heq ▸ Nat.le_add_right _ _

theorem Bounded.next (h : Bounded s) (ha : writes.Enabled s a) (hroom : PeerRoom s a) :
    Bounded (writes.next s a) := by
  cases a with
  | write d size => exact ⟨h.written, h.acked, fun _ _ => hroom⟩
  | step ok =>
    obtain ⟨w, hw, hnext⟩ := writes_step ok ha
    rw [hnext]
    exact h.step ok hw (hroom w hw)
  | segment ok g => exact h.segment ok hroom

theorem Bounded.respects (h : Bounded s) (hroom : PeerRoom s a) : RespectsWindow s a := by
  cases a with
  | write d size => trivial
  | segment ok g => trivial
  | step ok =>
    intro w hw
    have hinside := h.inside w hw
    refine ⟨fun hsends _ => ?_, fun _ => hinside.1⟩
    have hfits := payload_inside hinside (hroom w hw hsends)
    have hacked := h.acked
    omega

end TCP

open TCP

/-- In a run in which the peer leaves enough room, new data stays inside the window and the
    allowance is never computed below zero. -/
theorem writes_respect_window (s : Writing) (as : List Event) (hs : writes.Init s)
    (has : writes.Valid s as) (hroom : writes.Meets PeerRoom s as) :
    writes.Meets RespectsWindow s as := by
  have hbounded : Bounded s := by
    refine ⟨by rw [hs.1]; rfl, Nat.le_of_eq hs.2.2.2.symm, fun w hw => ?_⟩
    have hcall := (mem_running.mp hw).1
    rw [hs.2.2.1] at hcall
    cases hcall
  exact TransitionSystem.Meets.meets (fun s a h ha hr => h.next ha hr)
    (fun s a h _ hr => h.respects hr) hbounded has hroom

/-- A connection that has just been opened, to a peer with this window. -/
def openedTo (window : Nat) : Writing where
  conn :=
    { fromPort := 1024
      toPort := 80
      sequence := 1001
      acknowledgment := 5001
      peer := fun _ => 10
      peerWindow := window
      next := 1001
      unacknowledged := 1001
      initial := 1000
      state := .ESTABLISHED
      current := some (ackOf 1001 window) }
  acked := 1001

/-- A call with 100 bytes that are acknowledged. -/
theorem writes_respect_window_4096 : writes.Meets RespectsWindow (openedTo 4096)
    [.write (fun _ => 7) 100, .step true, .step true, .segment true (ackOf 1101 3996),
      .step true, .step true, .step true, .step true, .step true] :=
  writes_respect_window (openedTo 4096) _ ⟨rfl, nofun, rfl, rfl⟩ (by decide) (by decide)

/-- The first segment is sent whatever the window is. -/
theorem not_writes_respect_window : ¬∀ (s : Writing) (as : List Event), writes.Init s →
    writes.Valid s as → writes.Meets RespectsWindow s as := by
  intro h
  have hmeets := h (openedTo 500) [.write (fun _ => 7) 1000, .step true]
    ⟨rfl, nofun, rfl, rfl⟩ (by decide)
  have hrunning : { (openedTo 500).conn.write (fun _ => 7) 1000 with base := 1001 } ∈
      (writes.next (openedTo 500) (.write (fun _ => 7) 1000)).running := rfl
  exact absurd ((hmeets.2.1 _ hrunning).1 (by decide) (by decide)) (by decide)

end Epos
