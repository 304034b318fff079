import Epos.ForStd.Except
import Epos.ForStd.TransitionSystem
import Epos.Network.Mac
import Mathlib.Data.List.Nodup

/-!
# The pending buffer of the MAC, over whole runs

While a message is contended for and transmitted, `_tx_pending` is null or in the schedule. It is
null only where `drop` removed the buffer, which `tx_data` checks and `tx_mf` does not.
-/

namespace Epos

namespace TSTP.MAC

variable {Addr Frame : Type} [DecidableEq Addr] (env : Env Frame)
variable {s s' : State Addr Frame} {b p el : Addr} {buf : Buffer Frame}

/-- The buffers of the schedule are there, and none is in it twice. -/
structure Scheduled (s : State Addr Frame) : Prop where
  live : ∀ b ∈ s.tx_schedule, (s.buffers b).isSome
  nodup : s.tx_schedule.Nodup

/-- The pending buffer, if any, is in the schedule. -/
def PendingScheduled (s : State Addr Frame) : Prop :=
  ∀ p, s.tx_pending = some p → p ∈ s.tx_schedule

/-- What the loops over the schedule leave alone. -/
structure Untouched (s s' : State Addr Frame) : Prop where
  timer : s'.timer = s.timer
  in_rx_data : s'.in_rx_data = s.in_rx_data

/-! ## Reading and writing -/

namespace Scheduled

omit [DecidableEq Addr] in
/-- The schedule only depends on its elements and buffers. -/
theorem congr (h : Scheduled s) (hschedule : s'.tx_schedule = s.tx_schedule)
    (hbuffers : s'.buffers = s.buffers) : Scheduled s' := by
  constructor
  · rw [hschedule, hbuffers]
    exact h.live
  · rw [hschedule]
    exact h.nodup

omit [DecidableEq Addr] in
/-- Every scheduled buffer is there. -/
theorem object (h : Scheduled s) (hb : b ∈ s.tx_schedule) :
    ∃ buf, s.object b = .ok buf ∧ s.buffers b = some buf := by
  obtain ⟨buf, hbuf⟩ := Option.isSome_iff_exists.mp (h.live b hb)
  exact ⟨buf, by rw [State.object, hbuf], hbuf⟩

/-- The pending buffer is there if it is scheduled. -/
theorem pending (h : Scheduled s) (hp : s.tx_pending = some p) (hmem : p ∈ s.tx_schedule) :
    ∃ buf, s.pending = .ok (p, buf) := by
  obtain ⟨buf, hbuf⟩ := Option.isSome_iff_exists.mp (h.live p hmem)
  refine ⟨buf, ?_⟩
  simp only [State.pending, hp, hbuf]
  rw [if_pos hmem]

/-- A buffer may be written. -/
theorem write (h : Scheduled s) (b : Addr) (buf : Buffer Frame) : Scheduled (s.write b buf) where
  live x hx := by
    show (Function.update s.buffers b (some buf) x).isSome
    by_cases heq : x = b
    · subst heq
      rw [Function.update_self]
      rfl
    · rw [Function.update_of_ne heq]
      exact h.live x hx
  nodup := h.nodup

/-- A buffer may be deleted. -/
theorem delete (h : Scheduled s) (b : Addr) : Scheduled (s.delete b) where
  live x hx := by
    obtain ⟨hne, hmem⟩ := (List.Nodup.mem_erase_iff h.nodup).mp hx
    show (Function.update s.buffers b none x).isSome
    rw [Function.update_of_ne hne]
    exact h.live x hmem
  nodup := h.nodup.erase b

omit [DecidableEq Addr] in
/-- A new buffer that has been written goes to the end. -/
theorem append (h : Scheduled s) (hlive : (s.buffers b).isSome) (hb : b ∉ s.tx_schedule) :
    Scheduled { s with tx_schedule := s.tx_schedule ++ [b] } where
  live x hx := by
    cases List.mem_append.mp hx with
    | inl hmem => exact h.live x hmem
    | inr hnew => exact List.mem_singleton.mp hnew ▸ hlive
  nodup := by
    refine List.nodup_append.mpr ⟨h.nodup, List.nodup_singleton b, ?_⟩
    intro x hx y hy heq
    exact hb (List.mem_singleton.mp hy ▸ heq ▸ hx)

end Scheduled

/-- The others stay scheduled. -/
theorem mem_delete (hp : p ≠ b) : p ∈ (s.delete b).tx_schedule ↔ p ∈ s.tx_schedule :=
  List.mem_erase_of_ne hp

/-! ## The loops over the schedule

Each goes through a part of the schedule that it has not changed yet. -/

/-- What is left of the schedule for a loop. -/
structure Remaining (s : State Addr Frame) (rest : List Addr) : Prop where
  nodup : rest.Nodup
  subset : ∀ x ∈ rest, x ∈ s.tx_schedule

omit [DecidableEq Addr] in
/-- The whole schedule remains. -/
theorem Scheduled.remaining (h : Scheduled s) : Remaining s s.tx_schedule := ⟨h.nodup, fun _ h => h⟩

namespace Remaining

variable {rest : List Addr}

omit [DecidableEq Addr] in
/-- One element less remains. -/
theorem tail (h : Remaining s (el :: rest)) : Remaining s rest :=
  ⟨(List.nodup_cons.mp h.nodup).2, fun x hx => h.subset x (List.mem_cons_of_mem _ hx)⟩

omit [DecidableEq Addr] in
/-- No element comes twice. -/
theorem head_notMem (h : Remaining s (el :: rest)) : el ∉ rest := (List.nodup_cons.mp h.nodup).1

omit [DecidableEq Addr] in
/-- What remains is scheduled. -/
theorem head_mem (h : Remaining s (el :: rest)) : el ∈ s.tx_schedule :=
  h.subset el List.mem_cons_self

omit [DecidableEq Addr] in
/-- What remains only depends on the schedule. -/
theorem congr (h : Remaining s rest) (hschedule : s'.tx_schedule = s.tx_schedule) :
    Remaining s' rest :=
  ⟨h.nodup, fun x hx => hschedule ▸ h.subset x hx⟩

/-- The rest remains when the head is deleted. -/
theorem delete_head (h : Remaining s (el :: rest)) : Remaining (s.delete el) rest where
  nodup := h.tail.nodup
  subset x hx := by
    have hne : x ≠ el := fun heq => h.head_notMem (heq ▸ hx)
    exact (mem_delete hne).mpr (h.tail.subset x hx)

end Remaining

omit [DecidableEq Addr] in
/-- The search finds nothing or a scheduled buffer. -/
theorem Scheduled.find (h : Scheduled s) (id : UInt32) {l : List Addr} (hl : Remaining s l) :
    ∃ found, s.find id l = .ok found ∧ ∀ el, found = some el → el ∈ s.tx_schedule := by
  induction l with
  | nil => exact ⟨none, rfl, fun el hel => by cases hel⟩
  | cons el rest ih =>
    obtain ⟨buf, hbuf, -⟩ := h.object hl.head_mem
    rw [State.find, hbuf, Except.ok_bind]
    split
    · refine ⟨some el, rfl, fun x hx => ?_⟩
      cases hx
      exact hl.head_mem
    · exact ih hl.tail

/-- `clear` leaves `_tx_pending` as it is. -/
theorem Scheduled.clear (buf : Buffer Frame) (rest : List Addr) (h : Scheduled s)
    (hrest : Remaining s rest) :
    ∃ s', State.clear env buf rest s = .ok s' ∧ Scheduled s' ∧ Untouched s s' ∧
      s'.tx_pending = s.tx_pending := by
  induction rest generalizing s with
  | nil => exact ⟨s, rfl, h, ⟨rfl, rfl⟩, rfl⟩
  | cons el rest ih =>
    obtain ⟨queued, hqueued, -⟩ := h.object hrest.head_mem
    rw [State.clear, hqueued, Except.ok_bind]
    split
    · obtain ⟨s', hs', h', hun, hp⟩ := ih (h.delete el) hrest.delete_head
      exact ⟨s', hs', h', ⟨hun.timer, hun.in_rx_data⟩, hp⟩
    · exact ih h hrest.tail

/-- `replace` moves `_tx_pending` on to the new buffer. -/
theorem Scheduled.replace (buf : Buffer Frame) (rest : List Addr) (h : Scheduled s)
    (hrest : Remaining s rest) (hlive : (s.buffers b).isSome) (hb : b ∉ s.tx_schedule) :
    ∃ s', State.replace env b buf rest s = .ok s' ∧ Scheduled s' ∧ Untouched s s' ∧
      (s'.buffers b).isSome ∧ b ∉ s'.tx_schedule ∧
      (s'.tx_pending.isSome ↔ s.tx_pending.isSome) ∧
      ((∀ p, s.tx_pending = some p → p ∈ s.tx_schedule ∨ p = b) →
        ∀ p, s'.tx_pending = some p → p ∈ s'.tx_schedule ∨ p = b) := by
  induction rest generalizing s with
  | nil => exact ⟨s, rfl, h, ⟨rfl, rfl⟩, hlive, hb, Iff.rfl, fun hp => hp⟩
  | cons el rest ih =>
    obtain ⟨queued, hqueued, -⟩ := h.object hrest.head_mem
    have hne : b ≠ el := fun heq => hb (heq ▸ hrest.head_mem)
    rw [State.replace, hqueued, Except.ok_bind]
    split
    · -- the queued buffer is equal to the new one
      let s₁ : State Addr Frame :=
        { s.delete el with tx_pending := if s.tx_pending = some el then some b else s.tx_pending }
      have h₁ : Scheduled s₁ := (h.delete el).congr rfl rfl
      have hlive₁ : (s₁.buffers b).isSome := by
        show (Function.update s.buffers el none b).isSome
        rwa [Function.update_of_ne hne]
      have hb₁ : b ∉ s₁.tx_schedule := fun hmem => hb (List.mem_of_mem_erase hmem)
      obtain ⟨s', hs', h', hun, hlive', hb', hsome, hvalid⟩ :=
        ih h₁ (hrest.delete_head.congr rfl) hlive₁ hb₁
      refine ⟨s', hs', h', ⟨hun.timer, hun.in_rx_data⟩, hlive', hb', hsome.trans ?_, ?_⟩
      · show (if s.tx_pending = some el then some b else s.tx_pending).isSome ↔ _
        split
        · next heq => rw [heq]; rfl
        · rfl
      · intro hp
        apply hvalid
        intro p hpending
        change (if s.tx_pending = some el then some b else s.tx_pending) = some p at hpending
        split at hpending
        · exact Or.inr (Option.some.inj hpending).symm
        · next hother =>
          have hpel : p ≠ el := fun heq => hother (heq ▸ hpending)
          exact (hp p hpending).imp_left (mem_delete hpel).mpr
    · exact ih h hrest.tail hlive hb

/-- The buffer that `fetch` chooses stays in the schedule. -/
theorem Scheduled.fetch (now_us : Time_Stamp) (rest : List Addr) (h : Scheduled s)
    (hrest : Remaining s rest) (hp : PendingScheduled s)
    (hdone : ∀ p, s.tx_pending = some p → p ∉ rest) :
    ∃ s', State.fetch env now_us rest s = .ok s' ∧ Scheduled s' ∧ Untouched s s' ∧
      PendingScheduled s' := by
  induction rest generalizing s with
  | nil => exact ⟨s, rfl, h, ⟨rfl, rfl⟩, hp⟩
  | cons el rest ih =>
    obtain ⟨queued, hqueued, -⟩ := h.object hrest.head_mem
    have hdone' : ∀ p, s.tx_pending = some p → p ∉ rest :=
      fun p hpending hmem => hdone p hpending (List.mem_cons_of_mem _ hmem)
    -- the element is chosen, and is not looked at again
    have hchoose : ∃ s', State.fetch env now_us rest { s with tx_pending := some el } = .ok s' ∧
        Scheduled s' ∧ Untouched s s' ∧ PendingScheduled s' := by
      obtain ⟨s', hs', h', hun, hp'⟩ := ih (s := { s with tx_pending := some el })
        (h.congr rfl rfl) (hrest.tail.congr rfl)
        (fun p heq => Option.some.inj heq ▸ hrest.head_mem)
        (fun p heq => Option.some.inj heq ▸ hrest.head_notMem)
      exact ⟨s', hs', h', ⟨hun.timer, hun.in_rx_data⟩, hp'⟩
    rw [State.fetch, hqueued, Except.ok_bind]
    split
    · -- it has expired
      have hother : ∀ p, s.tx_pending = some p → p ≠ el := by
        intro p hpending heq
        exact hdone p hpending (by rw [heq]; exact List.mem_cons_self)
      obtain ⟨s', hs', h', hun, hp'⟩ := ih (h.delete el) hrest.delete_head
        (fun p hpending => (mem_delete (hother p hpending)).mpr (hp p hpending)) hdone'
      exact ⟨s', hs', h', ⟨hun.timer, hun.in_rx_data⟩, hp'⟩
    · split
      · exact hchoose
      · next hsome =>
        rw [Option.isNone_iff_eq_none] at hsome
        obtain ⟨p, hpending⟩ := Option.ne_none_iff_exists'.mp hsome
        obtain ⟨pending, hread⟩ := h.pending hpending (hp p hpending)
        rw [hread, Except.ok_bind]
        dsimp only
        split
        · exact hchoose
        · exact ih h hrest.tail hp hdone'

/-! ## The invariant -/

/-- The handlers of a transmission, from the contention on. -/
def Handler.transmits : Handler → Bool
  | .cca | .tx_mf | .tx_data => true
  | _ => false

/-- Those before the data. -/
def Handler.precedesData : Handler → Bool
  | .cca | .tx_mf => true
  | _ => false

/-- Where `dropped` says that `drop` has removed the buffer that was chosen last. -/
structure Inv (s : State Addr Frame) (dropped : Bool) : Prop extends Scheduled s where
  null : dropped = true → s.tx_pending = none
  quiet : ∀ time h, s.timer = some (time, h) → h.transmits = true → s.in_rx_data = false
  valid : ∀ time h, s.timer = some (time, h) → h.transmits = true → PendingScheduled s
  chosen : ∀ time h, s.timer = some (time, h) → h.precedesData = true → dropped = false →
    s.tx_pending.isSome

omit [DecidableEq Addr] in
/-- Nothing more is said while there is no transmission. -/
theorem Inv.of_idle {dropped : Bool} (h : Scheduled s)
    (hnull : dropped = true → s.tx_pending = none)
    (hidle : ∀ time h, s.timer = some (time, h) → h.transmits = false) : Inv s dropped where
  toScheduled := h
  null := hnull
  quiet time h htimer htx := by rw [hidle time h htimer] at htx; cases htx
  valid time h htimer htx := by rw [hidle time h htimer] at htx; cases htx
  chosen time h htimer hpre := by
    have hidle := hidle time h htimer
    cases h <;> cases hidle <;> cases hpre

omit [DecidableEq Addr] in
/-- A step of `send`, `drop` or `pre_notify`, which leaves the timer alone. -/
theorem Inv.keep {dropped dropped' : Bool} (h : Inv s dropped) (h' : Scheduled s')
    (hun : Untouched s s') (hnull : dropped' = true → s'.tx_pending = none)
    (hvalid : s.in_rx_data = false → PendingScheduled s → PendingScheduled s')
    (hchosen : dropped' = false → dropped = false ∧ (s.tx_pending.isSome → s'.tx_pending.isSome)) :
    Inv s' dropped' where
  toScheduled := h'
  null := hnull
  quiet time handler htimer htx := by
    rw [hun.timer] at htimer
    exact hun.in_rx_data.trans (h.quiet time handler htimer htx)
  valid time handler htimer htx := by
    rw [hun.timer] at htimer
    exact hvalid (h.quiet time handler htimer htx) (h.valid time handler htimer htx)
  chosen time handler htimer hpre hd := by
    rw [hun.timer] at htimer
    obtain ⟨hd₀, hsome⟩ := hchosen hd
    exact hsome (h.chosen time handler htimer hpre hd₀)

/-! ## The entry points -/

/-- `drop(id)` removes the pending buffer. -/
def State.dropsPending (s : State Addr Frame) (id : UInt32) : Bool :=
  match s.find id s.tx_schedule with
  | .ok (some el) => s.tx_pending = some el
  | _ => false

/-- `drop()` keeps the invariant, and notes if the pending buffer is gone. -/
theorem Inv.drop {dropped : Bool} (h : Inv s dropped) (id : UInt32) :
    ∃ s', s.drop id = .ok s' ∧ Inv s' (dropped || s.dropsPending id) := by
  obtain ⟨found, hfound, hmem⟩ := h.toScheduled.find id h.toScheduled.remaining
  rw [State.drop, State.dropsPending, hfound, Except.ok_bind]
  -- drop() deletes the entry that is found, whether it is pending or not
  cases found with
  | none => exact ⟨s, rfl, by rwa [Bool.or_false]⟩
  | some el =>
    refine ⟨_, rfl, h.keep ((h.toScheduled.delete el).congr rfl rfl) ⟨rfl, rfl⟩ ?_ ?_ ?_⟩
    · -- where it was pending, the pointer becomes null
      intro hd
      show (if s.tx_pending = some el then none else s.tx_pending) = none
      split
      · rfl
      · next hother =>
        apply h.null
        simpa [hother] using hd
    · -- another pending entry is still in the schedule
      intro _ hp p hpending
      change (if s.tx_pending = some el then none else s.tx_pending) = some p at hpending
      split at hpending
      · cases hpending
      · next hother =>
        have hne : p ≠ el := fun heq => hother (heq ▸ hpending)
        exact (mem_delete hne).mpr (hp p hpending)
    · -- nothing pending was dropped, so the pointer stays
      intro hd
      obtain ⟨hd₀, hother⟩ := Bool.or_eq_false_iff.mp hd
      refine ⟨hd₀, fun hsome => ?_⟩
      show (if s.tx_pending = some el then none else s.tx_pending).isSome
      rwa [if_neg (of_decide_eq_false hother)]

/-- `send()` keeps the invariant. -/
theorem Inv.send {dropped : Bool} (h : Inv s dropped) (buf : Buffer Frame)
    (hb : s.buffers b = none) :
    ∃ s', s.send env b buf = .ok s' ∧ Inv s' dropped := by
  rw [State.send]
  split
  · exact ⟨s, rfl, h⟩
  · -- the buffer is not in use, so it is not scheduled
    have hnew : b ∉ s.tx_schedule := by
      intro hmem
      have hlive := h.live b hmem
      rw [hb] at hlive
      cases hlive
    dsimp only
    generalize { buf with offset := State.clampOffset env buf } = buf
    have hlive : ((s.write b buf).buffers b).isSome := by
      show (Function.update s.buffers b (some buf) b).isSome
      rw [Function.update_self]
      rfl
    obtain ⟨s', hs', h', hun, hlive', hnew', hsome, hvalid⟩ :=
      (h.toScheduled.write b buf).replace env buf s.tx_schedule
        (h.toScheduled.remaining.congr rfl) hlive hnew
    rw [hs', Except.ok_bind]
    -- an equal message that is queued is replaced, also where it is pending
    refine ⟨_, rfl, h.keep (h'.append hlive' hnew') ⟨hun.timer, hun.in_rx_data⟩ ?_ ?_ ?_⟩
    · intro hd
      show s'.tx_pending = none
      have hnone : ¬ s'.tx_pending.isSome := by
        rw [hsome]
        show ¬ s.tx_pending.isSome
        rw [h.null hd]
        exact Bool.false_ne_true
      rwa [Option.not_isSome_iff_eq_none] at hnone
    · intro _ hp p hpending
      have hor := hvalid (fun p hp' => Or.inl (hp p hp')) p hpending
      exact List.mem_append.mpr (hor.imp_right List.mem_singleton.mpr)
    · exact fun hd => ⟨hd, hsome.mpr⟩

/-- `pre_notify()` keeps the invariant. -/
theorem Inv.pre_notify {dropped : Bool} (h : Inv s dropped) (buf : Buffer Frame) :
    ∃ s', s.pre_notify env buf = .ok s' ∧ Inv s' dropped := by
  have hnotify (buf : Buffer Frame) : Inv (s.notify buf) dropped :=
    h.keep (h.toScheduled.congr rfl rfl) ⟨rfl, rfl⟩ h.null (fun _ hp => hp) (fun hd => ⟨hd, id⟩)
  rw [State.pre_notify]
  split
  · exact ⟨_, rfl, hnotify _⟩
  split
  · split
    · split
      · -- a microframe: the timer is off until `post_notify`
        refine ⟨_, rfl, Inv.of_idle (h.toScheduled.congr rfl rfl) h.null ?_⟩
        intro time handler htimer
        cases htimer
      · exact ⟨s, rfl, h⟩
    · exact ⟨s, rfl, h⟩
  split
  · next hrx =>
    split
    · exact ⟨s, rfl, h⟩
    · -- data: there is no transmission
      obtain ⟨s', hs', h', hun, hpending⟩ :=
        h.toScheduled.clear env (s.dataBuffer env buf) s.tx_schedule h.toScheduled.remaining
      dsimp only
      rw [hs', Except.ok_bind]
      refine ⟨_, rfl, h.keep (h'.congr rfl rfl) ⟨hun.timer, hun.in_rx_data⟩ ?_ ?_ ?_⟩
      · intro hd
        exact hpending.trans (h.null hd)
      · intro hquiet
        rw [hrx] at hquiet
        cases hquiet
      · intro hd
        exact ⟨hd, fun hsome => (congrArg Option.isSome hpending).trans hsome⟩
  · exact ⟨s, rfl, h⟩

omit [DecidableEq Addr] in
/-- `post_notify()` keeps the invariant. -/
theorem Inv.post_notify {dropped : Bool} (h : Inv s dropped) (buf : Buffer Frame) (i : Inputs) :
    ∃ s', s.post_notify env buf i = .ok s' ∧ Inv s' dropped := by
  rw [State.post_notify]
  split
  · -- whatever is found, the next handler is not one of a transmission
    have hrelevant : ∃ relevant, s.isRelevant buf = .ok relevant := by
      rw [State.isRelevant]
      split
      · exact ⟨true, rfl⟩
      · obtain ⟨found, hfound, -⟩ := h.toScheduled.find buf.id h.toScheduled.remaining
        exact ⟨found.isSome, by rw [hfound, Except.ok_bind]⟩
    obtain ⟨relevant, hrelevant⟩ := hrelevant
    rw [hrelevant, Except.ok_bind]
    split
    · refine ⟨_, rfl, Inv.of_idle (h.toScheduled.congr rfl rfl) h.null ?_⟩
      intro time handler htimer
      cases htimer
      rfl
    · refine ⟨_, rfl, Inv.of_idle (h.toScheduled.congr rfl rfl) h.null ?_⟩
      intro time handler htimer
      cases htimer
      rfl
  · exact ⟨s, rfl, h⟩

/-- The event of `post_notify()` keeps the invariant. -/
theorem Inv.handle_post_notify {dropped : Bool} (h : Inv s dropped) (n : Nat) (relevant : Bool)
    (i : Inputs) : ∃ s', s.handle env (.post_notify n relevant i) = .ok s' ∧ Inv s' dropped := by
  rw [State.handle]
  split
  · exact ⟨s, rfl, h⟩
  · have h₁ : Inv { s with received := s.received.eraseIdx n } dropped :=
      h.keep (h.toScheduled.congr rfl rfl) ⟨rfl, rfl⟩ h.null (fun _ hp => hp) (fun hd => ⟨hd, id⟩)
    exact h₁.post_notify env _ i

/-! ## The handlers of the timer -/

omit [DecidableEq Addr] in
/-- `rx_mf()` keeps the invariant. -/
theorem Scheduled.rx_mf {dropped : Bool} (h : Scheduled s)
    (hnull : dropped = true → s.tx_pending = none) (now : Time_Stamp) :
    Inv (s.rx_mf env now) dropped := by
  refine Inv.of_idle (h.congr rfl rfl) hnull ?_
  intro time handler htimer
  cases htimer
  rfl

omit [DecidableEq Addr] in
/-- `rx_data()` keeps the invariant. -/
theorem Scheduled.rx_data {dropped : Bool} (h : Scheduled s)
    (hnull : dropped = true → s.tx_pending = none) (now : Time_Stamp) :
    Inv (s.rx_data env now) dropped := by
  refine Inv.of_idle (h.congr rfl rfl) hnull ?_
  intro time handler htimer
  cases htimer
  rfl

/-- A transmission goes on with the buffer that was chosen. -/
theorem Scheduled.contend (h : Scheduled s) (hp : s.tx_pending = some p)
    (hmem : p ∈ s.tx_schedule) (hquiet : s.in_rx_data = false) (i : Inputs) :
    ∃ s', s.contend env i = .ok s' ∧ Inv s' false := by
  obtain ⟨buf, hread⟩ := h.pending hp hmem
  rw [State.contend, hread, Except.ok_bind]
  refine ⟨_, rfl, (h.write p _).congr rfl rfl, by simp, fun _ _ _ _ => hquiet, ?_, ?_⟩
  · intro _ _ _ _ p' hp'
    cases hp.symm.trans hp'
    exact hmem
  · intro _ _ _ _ _
    show s.tx_pending.isSome
    rw [hp]
    rfl

/-- Whatever has been before, the schedule is enough for the next transmission. -/
theorem Scheduled.update_tx_schedule (h : Scheduled s) (i : Inputs) :
    ∃ s', s.update_tx_schedule env i = .ok s' ∧ Inv s' false := by
  rw [State.update_tx_schedule]
  generalize hs₀ :
    { s with timer := none, in_rx_data := false, in_rx_mf := false, tx_pending := none } = s₀
  have h₀ : Scheduled s₀ := hs₀ ▸ h.congr rfl rfl
  have hquiet : s₀.in_rx_data = false := by rw [← hs₀]
  have hnone : s₀.tx_pending = none := by rw [← hs₀]
  have hp₀ : PendingScheduled s₀ := fun p hp => by rw [hnone] at hp; cases hp
  -- either the schedule is empty, or the search goes through all of it
  have hchoose : ∃ s₁, s₀.choose env i.now = .ok s₁ ∧ Scheduled s₁ ∧ s₁.in_rx_data = false ∧
      PendingScheduled s₁ := by
    rw [State.choose]
    split
    · exact ⟨_, rfl, h₀.congr rfl rfl, hquiet, hp₀⟩
    · obtain ⟨s₁, hs₁, h₁, hun, hp₁⟩ := h₀.fetch env (env.count2us i.now) s₀.tx_schedule
        h₀.remaining hp₀ (fun p hp => by rw [hnone] at hp; cases hp)
      exact ⟨s₁, hs₁, h₁, hun.in_rx_data.trans hquiet, hp₁⟩
  obtain ⟨s₁, hs₁, h₁, hquiet₁, hp₁⟩ := hchoose
  rw [hs₁, Except.ok_bind]
  -- with an entry chosen the contention begins, else the radio listens
  split
  · next hsome =>
    obtain ⟨p, hpending⟩ := Option.isSome_iff_exists.mp hsome
    exact h₁.contend env hpending (hp₁ p hpending) hquiet₁ i
  · refine ⟨_, rfl, Inv.of_idle (h₁.congr rfl rfl) (by simp) ?_⟩
    intro time handler htimer
    cases htimer
    rfl

/-- What a handler of a transmission starts from. -/
structure Transmission (s : State Addr Frame) (dropped : Bool) : Prop extends Scheduled s where
  null : dropped = true → s.tx_pending = none
  quiet : s.in_rx_data = false
  valid : PendingScheduled s

omit [DecidableEq Addr] in
/-- The channel assessment keeps the invariant. -/
theorem Transmission.cca {dropped : Bool} (h : Transmission s dropped)
    (hchosen : dropped = false → s.tx_pending.isSome) (i : Inputs) :
    Inv (s.cca env i) dropped := by
  rw [State.cca]
  split
  · dsimp only
    split
    · exact ⟨h.toScheduled.congr rfl rfl, h.null, fun _ _ _ _ => h.quiet, fun _ _ _ _ => h.valid,
        fun _ _ _ _ => hchosen⟩
    · have h₁ : Scheduled { s with mf_time := i.now + env.us2count env.RX_TO_TX_DELAY.toUInt64 } :=
        h.toScheduled.congr rfl rfl
      exact h₁.rx_mf env h.null i.later
  · exact h.toScheduled.rx_mf env h.null i.later

/-- The pending buffer is copied unless it has been dropped. -/
theorem Transmission.copyPending {dropped : Bool} (h : Transmission s dropped)
    (hchosen : dropped = false → s.tx_pending.isSome) :
    if dropped then s.copyPending env = .error .null
    else ∃ s', s.copyPending env = .ok s' ∧ Inv s' dropped := by
  rw [State.copyPending]
  split
  · next hd =>
    have hpending : s.pending = .error .null := by simp only [State.pending, h.null hd]
    rw [hpending]
    rfl
  · next hd =>
    obtain ⟨p, hp⟩ := Option.isSome_iff_exists.mp (hchosen (Bool.eq_false_iff.mpr hd))
    obtain ⟨buf, hread⟩ := h.toScheduled.pending hp (h.valid p hp)
    rw [hread, Except.ok_bind]
    exact ⟨_, rfl, (h.toScheduled.write p _).congr rfl rfl, h.null, fun _ _ _ _ => h.quiet,
      fun _ _ _ _ => h.valid, fun _ _ _ _ => hchosen⟩

/-- The last microframe needs the buffer, the others do not. -/
theorem Transmission.tx_mf {dropped : Bool} (h : Transmission s dropped)
    (hchosen : dropped = false → s.tx_pending.isSome) :
    if s.mf.count = 0 ∧ dropped = true then s.tx_mf env = .error .null
    else ∃ s', s.tx_mf env = .ok s' ∧ Inv s' dropped := by
  rw [State.tx_mf, Microframe.dec_count]
  dsimp only
  generalize hs₁ : { s with mf_time := State.nextMfTime env s.mf_time, mf := _ } = s₁
  have h₁ : Transmission s₁ dropped := by
    subst hs₁
    exact ⟨h.toScheduled.congr rfl rfl, h.null, h.quiet, h.valid⟩
  have hchosen₁ : dropped = false → s₁.tx_pending.isSome := by
    subst hs₁
    exact hchosen
  by_cases hcount : s.mf.count = 0
  · have hzero : ¬ s.mf.count > 0 := by
      rw [hcount]
      exact lt_irrefl 0
    rw [if_neg hzero]
    have hcopy := h₁.copyPending env hchosen₁
    rwa [if_congr (and_iff_right hcount) rfl rfl]
  · have hpos : s.mf.count > 0 := UInt16.pos_iff_ne_zero.mpr hcount
    rw [if_pos hpos, if_neg fun hand => hcount hand.1]
    exact ⟨_, rfl, h₁.toScheduled.congr rfl rfl, h₁.null, fun _ _ _ _ => h₁.quiet,
      fun _ _ _ _ => h₁.valid, fun _ _ _ _ => hchosen₁⟩

/-- `tx_data` checks that there still is a buffer. -/
theorem Transmission.tx_data {dropped : Bool} (h : Transmission s dropped) (i : Inputs) :
    ∃ s', s.tx_data env i = .ok s' ∧ Inv s' dropped := by
  rw [State.tx_data]
  split
  · next hsome =>
    obtain ⟨p, hp⟩ := Option.isSome_iff_exists.mp hsome
    obtain ⟨buf, hread⟩ := h.toScheduled.pending hp (h.valid p hp)
    have hd : dropped = true → False := fun hd => by rw [h.null hd] at hp; cases hp
    have hidle {s₁ : State Addr Frame} (h₁ : Scheduled s₁) : Inv (s₁.sleep env) dropped := by
      refine Inv.of_idle (h₁.congr rfl rfl) (fun hd' => (hd hd').elim) ?_
      intro time handler htimer
      cases htimer
      rfl
    rw [hread, Except.ok_bind]
    dsimp only
    split
    · exact ⟨_, rfl, hidle (((h.toScheduled.write p _).delete p).congr rfl rfl)⟩
    · exact ⟨_, rfl, hidle ((h.toScheduled.write p _).congr rfl rfl)⟩
  · refine ⟨_, rfl, Inv.of_idle (h.toScheduled.congr rfl rfl) h.null ?_⟩
    intro time handler htimer
    cases htimer
    rfl

/-! ## Runs -/

/-- A state, or the fault that ended the run, and whether `drop` has removed the pending buffer
    since `update_tx_schedule` chose it. -/
structure Trace (Addr Frame : Type) where
  state : Except (Fault Addr) (State Addr Frame)
  dropped : Bool

namespace State

/-- The handler that is set. -/
def handler (s : State Addr Frame) : Option Handler := s.timer.map Prod.snd

def droppedBy (s : State Addr Frame) (dropped : Bool) : Event Addr Frame → Bool
  | .drop id => dropped || s.dropsPending id
  | .timer _ => if s.handler = some .update_tx_schedule then false else dropped
  | _ => dropped

/-- A new buffer is not in use, and every received buffer is freed once. -/
def Possible (s : State Addr Frame) : Event Addr Frame → Prop
  | .send b _ => s.buffers b = none
  | .post_notify n _ _ => n < s.received.length
  | .timer _ => s.timer.isSome
  | _ => True

end State

instance decidablePossible (s : State Addr Frame) :
    (e : Event Addr Frame) → Decidable (s.Possible e)
  | .send b _ => inferInstanceAs (Decidable (s.buffers b = none))
  | .drop _ => isTrue trivial
  | .pre_notify _ => isTrue trivial
  | .post_notify n _ _ => inferInstanceAs (Decidable (n < s.received.length))
  | .timer _ => inferInstanceAs (Decidable (s.timer.isSome = true))

/-- A run ends with the first fault. -/
def system (env : Env Frame) : TransitionSystem (Trace Addr Frame) (Event Addr Frame) where
  Init t := (∃ i, t.state = constructor_epilogue env i) ∧ t.dropped = false
  Enabled t e :=
    match t.state with
    | .error _ => False
    | .ok s => s.Possible e
  next t e :=
    match t.state with
    | .error _ => t
    | .ok s => { state := s.handle env e, dropped := s.droppedBy t.dropped e }

instance decidableEnabled :
    (t : Trace Addr Frame) → (e : Event Addr Frame) → Decidable ((system env).Enabled t e)
  | ⟨.error _, _⟩, _ => isFalse id
  | ⟨.ok s, _⟩, e => decidablePossible s e

/-- Every pointer was that of a scheduled buffer when it was read. -/
def Sound (t : Trace Addr Frame) : Prop := ∃ s, t.state = .ok s

/-- The last microframe of a message is about to be sent, and `drop` has removed the message since
    it was chosen. -/
def Lost (s : State Addr Frame) (dropped : Bool) : Prop :=
  s.handler = some .tx_mf ∧ s.mf.count = 0 ∧ dropped = true

/-- The timer does not go on with a message that is lost. -/
def Kept (t : Trace Addr Frame) : Event Addr Frame → Prop
  | .timer _ => ∀ s, t.state = .ok s → ¬ Lost s t.dropped
  | _ => True

/-- The invariant of runs. -/
def Invariant (t : Trace Addr Frame) : Prop := ∃ s, t.state = .ok s ∧ Inv s t.dropped

/-- The invariant holds at the beginning. -/
theorem invariant_init {t : Trace Addr Frame} (h : (system env).Init t) : Invariant t := by
  obtain ⟨⟨i, hstate⟩, hd⟩ := h
  rw [constructor_epilogue] at hstate
  have hempty : Scheduled ({} : State Addr Frame) := ⟨by simp, List.nodup_nil⟩
  split at hstate
  · refine ⟨{}, hstate, Inv.of_idle hempty (fun _ => rfl) ?_⟩
    intro time handler htimer
    cases htimer
  · obtain ⟨s, hs, h⟩ := hempty.update_tx_schedule env i
    refine ⟨s, hstate.trans hs, ?_⟩
    rw [hd]
    exact h

/-- One call of the timer. -/
theorem Inv.timer {dropped : Bool} (h : Inv s dropped) (hset : s.timer.isSome) (i : Inputs) :
    (Lost s dropped → s.handle env (.timer i) = .error .null) ∧
    (¬ Lost s dropped →
      ∃ s', s.handle env (.timer i) = .ok s' ∧ Inv s' (s.droppedBy dropped (.timer i))) := by
  obtain ⟨⟨time, handler⟩, htimer⟩ := Option.isSome_iff_exists.mp hset
  have hhandler : s.handler = some handler := by rw [State.handler, htimer]; rfl
  have hoff : Scheduled { s with timer := none } := h.toScheduled.congr rfl rfl
  have htx (htransmits : handler.transmits = true) :
      Transmission { s with timer := none } dropped :=
    ⟨hoff, h.null, h.quiet time handler htimer htransmits, h.valid time handler htimer htransmits⟩
  rw [State.handle, htimer, State.droppedBy, hhandler, Lost, hhandler]
  dsimp only
  -- only `tx_mf` can find that the buffer is missing
  cases handler with
  | update_tx_schedule => exact ⟨by simp, fun _ => hoff.update_tx_schedule env i⟩
  | cca =>
    exact ⟨by simp, fun _ => ⟨_, rfl, (htx rfl).cca env (h.chosen time .cca htimer rfl) i⟩⟩
  | rx_mf => exact ⟨by simp, fun _ => ⟨_, rfl, hoff.rx_mf env h.null i.now⟩⟩
  | rx_data => exact ⟨by simp, fun _ => ⟨_, rfl, hoff.rx_data env h.null i.now⟩⟩
  | tx_mf =>
    have hrun := (htx rfl).tx_mf env (h.chosen time .tx_mf htimer rfl)
    constructor
    · intro hlost
      rwa [if_pos hlost.2] at hrun
    · intro hkept
      rwa [if_neg fun hlost => hkept ⟨rfl, hlost⟩] at hrun
  | tx_data => exact ⟨by simp, fun _ => (htx rfl).tx_data env i⟩

/-- A step ends in a fault exactly where the message is lost. -/
theorem invariant_step {t : Trace Addr Frame} {e : Event Addr Frame} (h : Invariant t)
    (hen : (system env).Enabled t e) :
    (Kept t e → Invariant ((system env).next t e)) ∧
    (Sound ((system env).next t e) → Kept t e) := by
  obtain ⟨state, dropped⟩ := t
  obtain ⟨s, rfl, h⟩ := h
  change s.Possible e at hen
  cases e with
  | send b buf => exact ⟨fun _ => h.send env buf hen, fun _ => trivial⟩
  | drop id => exact ⟨fun _ => h.drop id, fun _ => trivial⟩
  | pre_notify buf => exact ⟨fun _ => h.pre_notify env buf, fun _ => trivial⟩
  | post_notify n relevant i =>
    exact ⟨fun _ => h.handle_post_notify env n relevant i, fun _ => trivial⟩
  | timer i =>
    obtain ⟨hfault, hrun⟩ := h.timer env hen i
    constructor
    · intro hkept
      exact hrun (hkept s rfl)
    · intro ⟨s', hs'⟩ s₁ heq hlost
      cases heq
      cases (hfault hlost).symm.trans hs'

/-- The runs in which every pointer is good when it is read are those that transmit no message
    after it has been dropped. -/
theorem pending_sound_iff {t : Trace Addr Frame} (ht : (system env).Init t)
    (as : List (Event Addr Frame)) (hv : (system env).Valid t as) :
    (system env).Always Sound t as ↔ (system env).Meets Kept t as := by
  refine TransitionSystem.always_iff_meets_inv ?_ ?_ ?_ (invariant_init env ht) hv
  · intro t ⟨s, hs, _⟩
    exact ⟨s, hs⟩
  · intro t e h hen
    exact (invariant_step env h hen).1
  · intro t e h hen
    refine ⟨(invariant_step env h hen).2, fun hkept => ?_⟩
    obtain ⟨s, hs, -⟩ := (invariant_step env h hen).1 hkept
    exact ⟨s, hs⟩

/-! ## A message that is dropped between microframes -/

/-- Three microframes ahead of each message, and frames that carry nothing. -/
def shortEnv : Env Unit where
  sniffer := false
  us2count time := time
  count2us time := time
  N_MICROFRAMES := 3
  G := 1
  OFFSET_LOWER_BOUND := 1
  OFFSET_GENERAL_LOWER_BOUND := 4
  OFFSET_UPPER_BOUND := 20
  OFFSET_GENERAL_UPPER_BOUND := 17
  SLEEP_PERIOD := 40
  RX_MF_TIMEOUT := 10
  RX_DATA_TIMEOUT := 10
  DATA_LISTEN_MARGIN := 2
  DATA_SKIP_TIME := 5
  TIME_BETWEEN_MICROFRAMES := 2
  MICROFRAME_TIME := 1
  TX_DELAY := 1
  Tu := 1
  SLEEP_TO_RX_DELAY := 1
  RX_TO_TX_DELAY := 1
  microframe _ := none
  type _ := 1
  subtype _ := 0
  identify frame := frame
  last_hop frame _ := frame
  equals b0 b1 := b0.id = b1.id

/-- The state after `constructor_epilogue()`. -/
def idle : Trace Nat Unit := { state := constructor_epilogue shortEnv {}, dropped := false }

/-- A message is queued and chosen, and the first microframes are sent. -/
def sendOne : List (Event Nat Unit) :=
  [.timer {}, .send 0 { frame := (), id := 7, deadline := 1000 }, .timer {}, .timer {}, .timer {}]

/-- A message that is dropped while it is pending. -/
theorem pending_sound_iff_short :
    (system shortEnv).Always Sound idle (sendOne ++ [.timer {}, .drop 7, .timer {}]) ↔
      (system shortEnv).Meets Kept idle (sendOne ++ [.timer {}, .drop 7, .timer {}]) :=
  pending_sound_iff shortEnv ⟨⟨{}, rfl⟩, rfl⟩ _ (by decide +kernel)

/-- The fault in which a run has ended. -/
def Trace.fault (t : Trace Addr Frame) : Option (Fault Addr) :=
  match t.state with
  | .ok _ => none
  | .error fault => some fault

/-- `tx_mf` follows a null pointer when the message is dropped before the last microframe. -/
theorem not_pending_sound :
    (system shortEnv).Init idle ∧
    (system shortEnv).Valid idle (sendOne ++ [.drop 7, .timer {}]) ∧
    ((system shortEnv).run idle (sendOne ++ [.drop 7, .timer {}])).fault = some .null ∧
    ¬ (system shortEnv).Always Sound idle (sendOne ++ [.drop 7, .timer {}]) := by
  have hfault : ((system shortEnv).run idle (sendOne ++ [.drop 7, .timer {}])).fault =
      some .null := by decide +kernel
  refine ⟨⟨⟨{}, rfl⟩, rfl⟩, by decide +kernel, hfault, fun halways => ?_⟩
  obtain ⟨s, hs⟩ := halways.last
  rw [Trace.fault, hs] at hfault
  cases hfault

end TSTP.MAC

end Epos
