import Epos.Spec.TcpWriteRuns

/-!
# What a completed `write` has sent

`write` measures its progress from the `_sequence` it finds, by the acknowledgment in the
last segment, and goes back to where it was when it last looked. That is right if it begins
where everything has been acknowledged, and if nothing is acknowledged between its look and
its wait or ahead of what it sends again.
-/

namespace Epos

namespace TCP

open Connection

variable {s : Writing} {a : Event} {c r : Connection} {g : Received} {w : Call}
  {acked n : Nat} {ok : Bool}

/-- The segment has the bytes of the call that belong to its number. -/
structure Piece.Aligned (p : Piece) (w : Call) : Prop where
  sequence : p.segment.sequence = w.base + p.offset
  payload : p.segment.payload = (w.d.shift p.offset).take p.segment.payload.length
  inside : p.offset + p.segment.payload.length ≤ w.size

/-- How many bytes have been sent from the beginning on, if no piece was ahead of these. -/
def covered (log : List Piece) : Option Nat :=
  log.foldl (fun n p => n.bind fun n =>
    if p.offset ≤ n then some (max n (p.offset + p.segment.payload.length)) else none) (some 0)

/-- A call that returns its size has sent all its bytes, in order, and they have been
    acknowledged. -/
def Completed (s : Writing) (w : Call) : Prop :=
  w.point = .returned (some w.size) →
    w.base + w.size ≤ s.acked ∧ ∃ n, covered w.log = some n ∧ w.size ≤ n

/-- What a call has sent belongs to it, and it has sent all of it when it is complete. -/
def WritesItsBytes (s : Writing) : Prop :=
  ∀ w ∈ s.call, (∀ p ∈ w.log, p.segment ∈ s.conn.sent ∧ p.Aligned w) ∧ Completed s w

/-- A call begins where everything that has been sent is acknowledged; it sends again from
    the last acknowledgment that it has looked at; and no segment is ahead of what it sends
    again or acknowledges, out of order, what it has not sent. -/
def Undisturbed (s : Writing) (a : Event) : Prop :=
  match a with
  | .write _ size =>
    s.conn.sequence = s.conn.next ∧ s.conn.currentAck = s.conn.next ∧
      s.conn.retransmitting = false ∧ s.conn.next + size < 2 ^ 32
  | .step _ => ∀ w ∈ s.running, w.point = .woken → s.conn.currentAck = w.oldAck →
    w.base + w.acknowledged = s.conn.currentAck
  | .segment _ g => ∀ w ∈ s.running,
    (s.conn.Early g → g.acknowledgment ≤ s.conn.next) ∧
    (s.conn.retransmitting = true → ¬s.conn.Early g → g.acknowledgment ≤ s.conn.next →
      g.acknowledgment ≤ s.conn.sequence)

/-! ## The invariant -/

/-- Where a call stands that has sent `n` bytes, while its connection is open. -/
structure Call.Live (w : Call) (c : Connection) (acked n : Nat) : Prop where
  initial : w.initialSeq = w.base
  small : w.base + w.size < 2 ^ 32
  ack_lt : c.currentAck < 2 ^ 32
  next : c.next ≤ w.base + n
  ack : c.currentAck ≤ c.next
  left : w.data + w.left = w.size
  data : w.data ≤ n
  fresh : c.retransmitting = false → c.next = w.base + w.data
  again : c.retransmitting = true → c.sequence = w.base + w.data
  tries : w.tries ≤ RETRIES
  waits : w.point = .entering ∨ w.point = .blocked ∨ w.point = .woken → w.tries < RETRIES
  done : w.acknowledged = w.size → w.size ≤ n ∧ w.base + w.size ≤ acked

/-- What holds of a call in every state of a run. -/
structure Call.Keeps (w : Call) (s : Writing) : Prop where
  sent : ∀ p ∈ w.log, p.segment ∈ s.conn.sent
  aligned : ∀ p ∈ w.log, p.Aligned w
  completed : Completed s w
  live : ∃ n, covered w.log = some n ∧ n ≤ w.size ∧
    (w.active = true → s.conn.state ≠ .CLOSED → w.Live s.conn s.acked n)

structure Writing.Keeps (s : Writing) : Prop where
  written : s.conn.state.written = true
  acked : s.conn.currentAck ≤ s.acked
  call : ∀ w ∈ s.call, w.Keeps s

theorem covered_append (log : List Piece) (p : Piece) (h : covered log = some n)
    (hp : p.offset ≤ n) :
    covered (log ++ [p]) = some (max n (p.offset + p.segment.payload.length)) := by
  unfold covered at h ⊢
  rw [List.foldl_append, h]
  simp [hp]

/-- A live call sends its own bytes. -/
theorem Call.Live.aligned (h : w.Live c acked n) : (w.piece c).Aligned w := by
  obtain ⟨-, -, hleft⟩ := payload_le w.toWrite
  have hlen : (w.piece c).segment.payload.length = w.payload := Bytes.length_take _ _
  have hsum := h.left
  refine ⟨?_, ?_, ?_⟩
  · show c.dsendStart = w.base + w.data
    unfold dsendStart
    cases hr : c.retransmitting with
    | false => exact h.fresh hr
    | true => exact h.again hr
  · rw [hlen]
    rfl
  · rw [hlen]
    show w.data + w.payload ≤ w.size
    omega

/-- And is live behind them. -/
theorem Call.Live.sent (h : w.Live c acked n) (hn : n ≤ w.size)
    (hs : w.toWrite.Sent c r) {v : Call} (hbase : v.base = w.base)
    (hv : v.toWrite =
      { w.toWrite with
        allowed := w.clipped
        data := w.data + w.payload
        left := w.left - w.payload
        point := .increment }) :
    v.Live r acked (max n (w.data + w.payload)) := by
  obtain ⟨-, -, hleft⟩ := payload_le w.toWrite
  have hack : r.currentAck = c.currentAck := by
    unfold currentAck
    rw [hs.current]
  have hsum := h.left
  have hsmall := h.small
  have hnext := h.next
  have hackNext := h.ack
  have hdone := h.done
  have hr := hs.retransmitting
  have hsize : v.size = w.size := by rw [hv]
  have hdata : v.data = w.data + w.payload := by rw [hv]
  have hleft' : v.left = w.left - w.payload := by rw [hv]
  have hpoint : v.point = .increment := by rw [hv]
  have htries : v.tries = w.tries := by rw [hv]
  have hacknowledged : v.acknowledged = w.acknowledged := by rw [hv]
  have hinitial : v.initialSeq = w.initialSeq := by rw [hv]
  have hinitial' : v.initialSeq = v.base := by rw [hinitial, hbase, h.initial]
  have hsmall' : v.base + v.size < 2 ^ 32 := by rw [hbase, hsize]; exact hsmall
  have hlt : r.currentAck < 2 ^ 32 := by rw [hack]; exact h.ack_lt
  have htries' : v.tries ≤ RETRIES := by rw [htries]; exact h.tries
  have hwaits : v.point = .entering ∨ v.point = .blocked ∨ v.point = .woken →
      v.tries < RETRIES := by
    rw [hpoint]
    nofun
  have hdone' : v.acknowledged = v.size →
      v.size ≤ max n (w.data + w.payload) ∧ v.base + v.size ≤ acked := by
    intro hall
    have hend := hdone (by omega)
    omega
  -- a new piece moves `SND.NXT`, one that is sent again moves only the sequence number
  cases hretransmitting : c.retransmitting with
  | false =>
    obtain ⟨hseq', hnext'⟩ := hs.fresh hretransmitting
    have hstart := h.fresh hretransmitting
    have hfresh : r.retransmitting = false := by rw [hr, hretransmitting, Bool.false_and]
    rw [Nat.mod_eq_of_lt (by omega)] at hnext'
    exact ⟨hinitial', hsmall', hlt, by omega, by omega, by omega, by omega, fun _ => by omega,
      fun hno => absurd hfresh (by simp [hno]), htries', hwaits, hdone'⟩
  | true =>
    obtain ⟨hseq', hnext'⟩ := hs.again hretransmitting
    have hstart := h.again hretransmitting
    have hcaught : r.retransmitting = false → r.sequence = r.next := by
      intro hno
      rwa [hr, hretransmitting, Bool.true_and, bne_eq_false_iff_eq] at hno
    rw [Nat.mod_eq_of_lt (by omega)] at hseq'
    exact ⟨hinitial', hsmall', hlt, by omega, by omega, by omega, by omega,
      fun hno => by have heq := hcaught hno; omega, fun _ => by omega, htries', hwaits, hdone'⟩

/-! ## Statements -/

/-- A call that ends has sent all its bytes if it says so. -/
theorem Call.Live.returns (h : w.Live c acked n) (hcontinues : w.toWrite.continues c = false)
    (hr : (w.toWrite.leave c).2.point = .returned (some w.size)) :
    w.size ≤ n ∧ w.base + w.size ≤ acked := by
  have hnone : ¬(w.tries = RETRIES ∨ (!c.isOpen) = true) := by
    intro hnone
    have hpoint : (w.toWrite.leave c).2.point =
        .returned (if w.tries = RETRIES ∨ (!c.isOpen) = true then none else some w.size) := rfl
    rw [hpoint, if_pos hnone] at hr
    cases hr
  simp only [not_or, Bool.not_eq_true', Bool.not_eq_false] at hnone
  have htries : w.tries < RETRIES := Nat.lt_of_le_of_ne h.tries hnone.1
  apply h.done
  by_contra hne
  simp [Write.continues, htries, hnone.2, hne] at hcontinues

theorem ne_closed_of_isOpen (h : c.isOpen = true) : c.state ≠ .CLOSED := by
  intro hclosed
  simp [isOpen, hclosed] at h

theorem isOpen_of_continues (h : w.toWrite.continues c = true) :
    c.isOpen = true ∧ w.tries < RETRIES := by
  simp only [Write.continues, Bool.and_eq_true, decide_eq_true_eq] at h
  exact ⟨h.2, h.1.1⟩

theorem completed_of_ne {v : Call} (h : v.point ≠ .returned (some v.size)) : Completed s v :=
  fun hr => absurd hr h

theorem stepCall_eq {c' : Connection} {w' : Write} (hdsends : (ok && w.dsends s.conn) = false)
    (hstep : w.toWrite.step s.conn ok = (c', w')) :
    (s.stepCall ok w).conn = c' ∧ (s.stepCall ok w).call = some { w with toWrite := w' } := by
  unfold Writing.stepCall
  rw [hstep, hdsends]
  exact ⟨rfl, rfl⟩

/-- `quiet` for a statement that has been computed. -/
theorem Writing.Keeps.stepQuiet {c' : Connection} {w' : Write} (h : s.Keeps) (hw : w ∈ s.running)
    (hdsends : (ok && w.dsends s.conn) = false)
    (hstep : w.toWrite.step s.conn ok = (c', w')) (hstate : c'.state = s.conn.state)
    (hcurrent : c'.current = s.conn.current) (hsent : c'.sent = s.conn.sent)
    (hsize : w'.size = w.size) (hd : w'.d = w.d)
    (hcompleted : ∀ n, (s.conn.state ≠ .CLOSED → w.Live s.conn s.acked n) →
      w'.point = .returned (some w.size) → w.size ≤ n ∧ w.base + w.size ≤ s.acked)
    (hlive : ∀ n, w.Live s.conn s.acked n → n ≤ w.size → s.conn.state ≠ .CLOSED →
      ({ w with toWrite := w' } : Call).active = true →
      ({ w with toWrite := w' } : Call).Live c' s.acked n) : (s.stepCall ok w).Keeps := by
  obtain ⟨hconn, hcall⟩ := stepCall_eq hdsends hstep
  have hkeeps := h.call w (mem_running.mp hw).1
  have hactive := (mem_running.mp hw).2
  obtain ⟨n, hn, hle, hl⟩ := hkeeps.live
  have hacked := h.acked
  have hacked' : (s.stepCall ok w).acked = s.acked := rfl
  refine ⟨by rw [hconn, hstate]; exact h.written, ?_, fun v hv => ?_⟩
  · rw [hconn, hacked']
    unfold currentAck at hacked ⊢
    rw [hcurrent]
    exact hacked
  · -- the four facts about a call: what it sent, how it is aligned, its result, its progress
    obtain rfl := Option.some.inj (hcall.symm.trans hv)
    refine ⟨fun p hp => ?_, fun p hp => ?_, fun hr => ?_, n, hn, by rw [hsize]; exact hle,
      fun hact hopen => ?_⟩
    · rw [hconn, hsent]
      exact hkeeps.sent p hp
    · obtain ⟨hsequence, hpayload, hinside⟩ := hkeeps.aligned p hp
      exact ⟨hsequence, by rw [hd]; exact hpayload, by rw [hsize]; exact hinside⟩
    · rw [hsize] at hr ⊢
      obtain ⟨hend, hack⟩ := hcompleted n (hl hactive) hr
      exact ⟨hack, n, hn, hend⟩
    · rw [hconn, hstate] at hopen
      rw [hconn, hacked']
      exact hlive n (hl hactive hopen) hle hopen hact

/-- A statement that sends. -/
theorem Writing.Keeps.stepSends (h : s.Keeps) (hw : w ∈ s.running)
    (hdsends : w.dsends s.conn = true) (hopen : s.conn.state ≠ .CLOSED)
    (hstep : w.toWrite.step s.conn true = (w.toWrite.sent s.conn,
      { w.toWrite with
        allowed := w.clipped
        data := w.data + w.payload
        left := w.left - w.payload
        point := .increment })) : (s.stepCall true w).Keeps := by
  have hsent := sent_spec w.toWrite s.conn
  have hkeeps := h.call w (mem_running.mp hw).1
  obtain ⟨n, hn, hle, hl⟩ := hkeeps.live
  have hlive := hl (mem_running.mp hw).2 hopen
  have hpiece := hlive.aligned
  have hlen : (w.piece s.conn).segment.payload.length = w.payload := Bytes.length_take _ _
  -- the piece starts inside of what has been sent, so there is no gap
  have hcovered := covered_append w.log (w.piece s.conn) hn hlive.data
  have hacked := h.acked
  unfold Writing.stepCall
  rw [hstep, hdsends]
  generalize w.toWrite.sent s.conn = r at hsent ⊢
  refine ⟨?_, ?_, fun v hv => ?_⟩
  · show r.state.written = true
    rw [hsent.state]
    exact h.written
  · show r.currentAck ≤ s.acked
    unfold currentAck at hacked ⊢
    rw [hsent.current]
    exact hacked
  · obtain rfl := Option.some.inj hv
    refine ⟨fun p hp => ?_, fun p hp => ?_, completed_of_ne nofun, _, hcovered, ?_,
      fun _ _ => ?_⟩
    · show p.segment ∈ r.sent
      rw [hsent.sent]
      cases List.mem_append.mp hp with
      | inl hold => exact List.mem_append_left _ (hkeeps.sent p hold)
      | inr hnew =>
        rw [List.mem_singleton.mp hnew]
        exact List.mem_append_right _ List.mem_cons_self
    · cases List.mem_append.mp hp with
      | inl hold =>
        obtain ⟨hsequence, hpayload, hinside⟩ := hkeeps.aligned p hold
        exact ⟨hsequence, hpayload, hinside⟩
      | inr hnew =>
        rw [List.mem_singleton.mp hnew]
        exact ⟨hpiece.sequence, hpiece.payload, hpiece.inside⟩
    · exact Nat.max_le.mpr ⟨hle, hpiece.inside⟩
    · rw [hlen]
      exact hlive.sent hle hsent rfl rfl

/-- Only the head of the loop sends. -/
theorem dsends_of_ne_head (ok : Bool) (hp : w.point ≠ .head) :
    (ok && w.dsends c) = false := by
  have hne : (w.point == .head) = false := by simp [hp]
  simp [Call.dsends, hne]

/-- A statement that does not return claims nothing about acknowledgements. -/
theorem returned_of_ne {w' : Write} {n : Nat} (hp : w'.point ≠ .returned (some w.size)) :
    (s.conn.state ≠ .CLOSED → w.Live s.conn s.acked n) →
      w'.point = .returned (some w.size) → w.size ≤ n ∧ w.base + w.size ≤ s.acked :=
  fun _ hr => absurd hr hp

/-- The head of the loop: it ends when all is acknowledged, when there were too many
    tries, or when the connection is closed; otherwise it sends or waits. -/
theorem Writing.Keeps.stepHead (h : s.Keeps) (ok : Bool) (hw : w ∈ s.running)
    (hpoint : w.point = .head) : (s.stepCall ok w).Keeps := by
  have hstep : w.toWrite.step s.conn ok = w.toWrite.head s.conn ok := by
    unfold Write.step
    rw [hpoint]
  -- the loop ends here
  cases hcontinues : w.toWrite.continues s.conn with
  | false =>
    have hdsends : (ok && w.dsends s.conn) = false := by
      simp [Call.dsends, Write.sends, hcontinues]
    refine h.stepQuiet hw hdsends (hstep.trans (head_leave ok hcontinues)) rfl rfl rfl rfl rfl
      (fun n hl hr => ?_) fun n _ _ _ hact => by cases hact
    have hopen : s.conn.state ≠ .CLOSED := by
      apply ne_closed_of_isOpen
      cases hopen : s.conn.isOpen with
      | true => rfl
      | false =>
        simp [hopen] at hr
    exact (hl hopen).returns hcontinues hr
  -- the loop goes on: it waits, or sends a segment
  | true =>
    obtain ⟨hopen, htries⟩ := isOpen_of_continues hcontinues
    cases hsends : w.toWrite.sends s.conn with
    | false =>
      have hdsends : (ok && w.dsends s.conn) = false := by simp [Call.dsends, hsends]
      refine h.stepQuiet hw hdsends (hstep.trans (head_wait ok hcontinues hsends)) rfl rfl rfl
        rfl rfl (fun n => returned_of_ne (by simp)) fun n hl _ _ _ => ?_
      exact { hl with waits := fun _ => htries }
    | true =>
      cases ok with
      | false =>
        exact h.stepQuiet hw rfl (hstep.trans (head_fail hsends)) rfl rfl rfl rfl rfl
          (fun n => returned_of_ne (by simp)) fun n _ _ _ hact => by cases hact
      | true =>
        have hdsends : w.dsends s.conn = true := by simp [Call.dsends, hpoint, hsends]
        exact h.stepSends hw hdsends (ne_closed_of_isOpen hopen) (hstep.trans (head_send hsends))

/-- The increment of the loop: what has been acknowledged so far is all only if the last
    acknowledgement is at the end of the data. -/
theorem Writing.Keeps.stepIncrement (h : s.Keeps) (ok : Bool) (hw : w ∈ s.running)
    (hpoint : w.point = .increment) : (s.stepCall ok w).Keeps := by
  obtain ⟨ack, hack⟩ : ∃ ack, ack = subUnsigned s.conn.currentAck w.initialSeq := ⟨_, rfl⟩
  obtain ⟨allowed, hallowed⟩ : ∃ allowed, allowed = s.conn.allowance := ⟨_, rfl⟩
  have hstep : w.toWrite.step s.conn ok = (s.conn,
      { w.toWrite with acknowledged := ack, allowed := allowed, point := .head }) := by
    unfold Write.step
    rw [hpoint, hack, hallowed]
    rfl
  refine h.stepQuiet hw (dsends_of_ne_head ok (by simp [hpoint])) hstep rfl rfl rfl rfl rfl
    (fun n => returned_of_ne (by simp)) fun n hl hn _ _ => ?_
  have hacked := h.acked
  refine { hl with waits := fun hno => by simp at hno, done := fun hall => ?_ }
  have hall' : ack = w.size := hall
  have hend : s.conn.currentAck = w.base + w.size := by
    have hsmall := hl.small
    have hlt := hl.ack_lt
    rw [hack, hl.initial] at hall'
    unfold subUnsigned at hall'
    omega
  have hnext := hl.next
  have hle := hl.ack
  show w.size ≤ n ∧ w.base + w.size ≤ s.acked
  omega

/-- `p()` moves on without a change: it goes to sleep, or it has been woken up. -/
theorem Writing.Keeps.stepSleep {q : Point} (h : s.Keeps) (ok : Bool) (hw : w ∈ s.running)
    (hstep : w.toWrite.step s.conn ok = (s.conn, { w.toWrite with point := q }))
    (hne : w.point ≠ .head) (hq : q ≠ .returned (some w.size))
    (hlive : ∀ n, w.Live s.conn s.acked n →
      ({ w with toWrite := { w.toWrite with point := q } } : Call).Live s.conn s.acked n) :
    (s.stepCall ok w).Keeps :=
  h.stepQuiet hw (dsends_of_ne_head ok hne) hstep rfl rfl rfl rfl rfl
    (fun _ => returned_of_ne hq) fun n hl _ _ _ => hlive n hl

/-- The call has been woken up by an acknowledgement, or its time is over and everything
    from the last acknowledgement on is sent again. -/
theorem Writing.Keeps.stepWake (h : s.Keeps) (ok : Bool) (hw : w ∈ s.running)
    (hpoint : w.point = .woken)
    (hwoken : s.conn.currentAck = w.oldAck → w.base + w.acknowledged = s.conn.currentAck) :
    (s.stepCall ok w).Keeps := by
  have hstep : w.toWrite.step s.conn ok = w.toWrite.wake s.conn := by
    unfold Write.step
    rw [hpoint]
  have hdsends := dsends_of_ne_head (c := s.conn) ok (show w.point ≠ .head by simp [hpoint])
  -- without a new acknowledgement this is a timeout
  by_cases hsame : s.conn.currentAck = w.oldAck
  · obtain ⟨left, hleft⟩ : ∃ left, left = subUnsigned w.size w.acknowledged := ⟨_, rfl⟩
    have hwake : w.toWrite.wake s.conn =
        ({ s.conn with
            retransmitting := true
            sequence := s.conn.currentAck
            unacknowledged := s.conn.currentAck },
          { w.toWrite with
            data := w.acknowledged
            left := left
            tries := w.tries + 1
            point := .increment }) := by
      unfold Write.wake
      rw [if_pos hsame, hleft]
    refine h.stepQuiet hw hdsends (hstep.trans hwake) rfl rfl rfl rfl rfl
      (fun n => returned_of_ne (by simp)) fun n hl hn _ _ => ?_
    have hagain := hwoken hsame
    have hack := hl.ack
    have hnext := hl.next
    have htries := hl.waits (.inr (.inr hpoint))
    have hsum : w.acknowledged + left = w.size := by
      have hsmall := hl.small
      rw [hleft]
      unfold subUnsigned
      omega
    exact { hl with
      left := hsum
      data := show w.acknowledged ≤ n by omega
      fresh := fun h => by simp at h
      again := fun _ => hagain.symm
      tries := htries
      waits := fun hno => by simp at hno }
  · have hwake : w.toWrite.wake s.conn =
        (s.conn, { w.toWrite with tries := 0, point := .increment }) := by
      unfold Write.wake
      rw [if_neg hsame]
    refine h.stepQuiet hw hdsends (hstep.trans hwake) rfl rfl rfl rfl rfl
      (fun n => returned_of_ne (by simp)) fun n hl hn _ _ => ?_
    exact { hl with tries := Nat.zero_le _, waits := fun hno => by simp at hno }

/-- A statement keeps what a call keeps. -/
theorem Writing.Keeps.step (h : s.Keeps) (ok : Bool) (hw : w ∈ s.running)
    (hwoken : w.point = .woken → s.conn.currentAck = w.oldAck →
      w.base + w.acknowledged = s.conn.currentAck) : (s.stepCall ok w).Keeps := by
  cases hpoint : w.point with
  | head => exact h.stepHead ok hw hpoint
  | increment => exact h.stepIncrement ok hw hpoint
  | entering =>
    refine h.stepSleep (q := .blocked) ok hw ?_ (by simp [hpoint]) (by simp) fun n hl => ?_
    · unfold Write.step
      rw [hpoint]
    · exact { hl with waits := fun _ => hl.waits (.inl hpoint) }
  | blocked =>
    refine h.stepSleep (q := .woken) ok hw ?_ (by simp [hpoint]) (by simp) fun n hl => ?_
    · unfold Write.step
      rw [hpoint]
    · exact { hl with waits := fun _ => hl.waits (.inr (.inl hpoint)) }
  | woken => exact h.stepWake ok hw hpoint (hwoken hpoint)
  | returned r => exact absurd hw (not_running_of_returned hpoint s)

/-! ## Runs -/

/-- A segment that does not disturb a call. -/
theorem Call.Live.segment {v : Call} (h : v.Live c acked n) (hg : g.Updates c r)
    (hlt : g.acknowledgment < 2 ^ 32) (hopen : r.state ≠ .CLOSED)
    (hearly : c.Early g → g.acknowledgment ≤ c.next)
    (hahead : c.retransmitting = true → ¬c.Early g → g.acknowledgment ≤ c.next →
      g.acknowledgment ≤ c.sequence) : v.Live r (max acked g.acknowledgment) n := by
  -- the acknowledgment is not ahead of what was sent, or the connection would be closed
  have hack : r.currentAck = g.acknowledgment := by
    unfold currentAck
    rw [hg.current]
  have hle : g.acknowledgment ≤ c.next := by
    by_cases he : c.Early g
    · exact hearly he
    · by_contra hbeyond
      exact hopen (hg.beyond he (Nat.not_le.mp hbeyond))
  refine { h with
    ack_lt := by rw [hack]; exact hlt
    next := by rw [hg.next]; exact h.next
    ack := by rw [hack, hg.next]; exact hle
    fresh := fun hno => ?_
    again := fun hagain => ?_
    done := fun hall =>
      ⟨(h.done hall).1, Nat.le_trans (h.done hall).2 (Nat.le_max_left _ _)⟩ }
  · rw [hg.next]
    exact h.fresh (hg.retransmitting ▸ hno)
  · rw [hg.retransmitting] at hagain
    -- the handler leaves the position, or moves it to the acknowledgment
    rcases hg.sequence with heq | ⟨hno, -⟩ | ⟨-, he, hnext, hahead', -⟩
    · rw [heq]
      exact h.again hagain
    · rw [hagain] at hno
      cases hno
    · exact absurd (hahead hagain he hnext) (Nat.not_le.mpr hahead')

theorem Writing.Keeps.segment (h : s.Keeps) (ok : Bool)
    (ha : writes.Enabled s (.segment ok g)) (hg : Undisturbed s (.segment ok g)) :
    (writes.next s (.segment ok g)).Keeps := by
  have hupdate : g.Updates s.conn (s.conn.update ok g) := update_writing ok h.written
  refine ⟨hupdate.written, ?_, fun w hw => ?_⟩
  · have hack : (s.conn.update ok g).currentAck = g.acknowledgment := by
      unfold currentAck
      rw [hupdate.current]
    show (s.conn.update ok g).currentAck ≤ max s.acked g.acknowledgment
    rw [hack]
    exact Nat.le_max_right _ _
  · have hkeeps := h.call w hw
    obtain ⟨n, hn, hle, hl⟩ := hkeeps.live
    refine ⟨fun p hp => hupdate.sent (hkeeps.sent p hp), hkeeps.aligned, fun hr => ?_, n, hn, hle,
      fun hact hopen => ?_⟩
    · obtain ⟨hack, hall⟩ := hkeeps.completed hr
      exact ⟨Nat.le_trans hack (Nat.le_max_left _ _), hall⟩
    · obtain ⟨hearly, hahead⟩ := hg w (mem_running.mpr ⟨hw, hact⟩)
      have hopen' : s.conn.state ≠ .CLOSED := mt hupdate.closed hopen
      exact (hl hact hopen').segment hupdate ha.1 hopen hearly hahead

/-- A call begins with nothing sent and everything acknowledged. -/
theorem Writing.Keeps.write (h : s.Keeps) {d : Bytes} {size : Nat}
    (hc : Undisturbed s (.write d size)) : (writes.next s (.write d size)).Keeps := by
  obtain ⟨hseq, hack, hretransmitting, hsmall⟩ := hc
  refine ⟨h.written, h.acked, fun w hw => ?_⟩
  obtain rfl := Option.some.inj hw
  refine ⟨nofun, nofun, nofun, 0, rfl, Nat.zero_le _, fun _ _ => ?_⟩
  have hacked := h.acked
  -- nothing was sent yet: the acknowledgment and the position are those of the start
  exact {
    initial := hseq
    small := hsmall
    ack_lt := by
      show s.conn.currentAck < 2 ^ 32
      omega
    next := Nat.le_refl _
    ack := Nat.le_of_eq hack
    left := Nat.zero_add _
    data := Nat.le_refl _
    fresh := fun _ => rfl
    again := fun hagain => absurd hretransmitting (by
      have hagain' : s.conn.retransmitting = true := hagain
      simp [hagain'])
    tries := Nat.zero_le _
    waits := nofun
    done := fun hall => by
      have hzero : 0 = size := hall
      show size ≤ 0 ∧ s.conn.next + size ≤ s.acked
      omega }

theorem Writing.Keeps.next (h : s.Keeps) (ha : writes.Enabled s a) (hc : Undisturbed s a) :
    (writes.next s a).Keeps := by
  cases a with
  | write d size => exact h.write hc
  | step ok =>
    obtain ⟨w, hw, hnext⟩ := writes_step ok ha
    rw [hnext]
    exact h.step ok hw (hc w hw)
  | segment ok g => exact h.segment ok ha hc

instance : (s : Writing) → (a : Event) → Decidable (Undisturbed s a)
  | s, .write _ size => inferInstanceAs (Decidable (s.conn.sequence = s.conn.next ∧
      s.conn.currentAck = s.conn.next ∧ s.conn.retransmitting = false ∧
      s.conn.next + size < 2 ^ 32))
  | s, .step _ => inferInstanceAs (Decidable (∀ w ∈ s.running, w.point = .woken →
      s.conn.currentAck = w.oldAck → w.base + w.acknowledged = s.conn.currentAck))
  | s, .segment _ g => inferInstanceAs (Decidable (∀ w ∈ s.running,
      (s.conn.Early g → g.acknowledgment ≤ s.conn.next) ∧
      (s.conn.retransmitting = true → ¬s.conn.Early g → g.acknowledgment ≤ s.conn.next →
        g.acknowledgment ≤ s.conn.sequence)))

end TCP

open TCP

/-- In an undisturbed run, a call sends the bytes that belong to the numbers of its segments,
    and has sent all of them, acknowledged, when it returns its size. -/
theorem writes_complete (s : Writing) (as : List Event) (hs : writes.Init s)
    (has : writes.Valid s as) (hc : writes.Meets Undisturbed s as) :
    writes.Always WritesItsBytes s as := by
  have hkeeps : s.Keeps := by
    refine ⟨by rw [hs.1]; rfl, Nat.le_of_eq hs.2.2.2.symm, fun w hw => ?_⟩
    rw [hs.2.2.1] at hw
    cases hw
  have halways := TransitionSystem.Meets.always
    (fun s a (h : s.Keeps) ha hc => h.next ha hc) hkeeps has hc
  exact halways.imp fun s h w hw =>
    ⟨fun p hp => ⟨(h.call w hw).sent p hp, (h.call w hw).aligned p hp⟩, (h.call w hw).completed⟩

/-- A connection to a window of 4096 bytes, where `_sequence` is `sequence`. -/
def openedAt (sequence : Nat) : Writing where
  conn :=
    { fromPort := 80
      toPort := 1024
      sequence := sequence
      acknowledgment := 5001
      peer := fun _ => 10
      peerWindow := 4096
      next := 1001
      unacknowledged := 1000
      initial := 1000
      state := .ESTABLISHED
      current := some (ackOf 1001 4096) }
  acked := 1001

/-- 100 bytes that get lost, are sent again and acknowledged. -/
theorem writes_complete_again : writes.Always WritesItsBytes (openedAt 1001)
    [.write (fun _ => 7) 100, .step true, .step true, .step true, .step true, .step true,
      .step true, .step true, .step true, .segment true (ackOf 1101 4096), .step true,
      .step true] :=
  writes_complete (openedAt 1001) _ ⟨rfl, nofun, rfl, rfl⟩ (by decide) (by decide)

/-- An accepted connection, whose `_sequence` is that of its `SYN`, counts one byte too many:
    the last byte need not be acknowledged. -/
theorem not_writes_complete : ¬∀ (s : Writing) (as : List Event), writes.Init s →
    writes.Valid s as → writes.Always WritesItsBytes s as := by
  intro h
  let as : List Event := [.write (fun _ => 7) 100, .step true, .segment true (ackOf 1100 4096),
    .step true, .step true]
  have halways := h (openedAt 1000) as ⟨rfl, nofun, rfl, rfl⟩ (by decide)
  have hreturned : ∃ w ∈ (writes.run (openedAt 1000) as).call,
      w.point = .returned (some w.size) ∧
        ¬w.base + w.size ≤ (writes.run (openedAt 1000) as).acked := by
    decide
  obtain ⟨w, hw, hpoint, hack⟩ := hreturned
  exact hack ((halways.last w hw).2 hpoint).1

end Epos
