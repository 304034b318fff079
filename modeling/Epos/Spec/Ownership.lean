import Epos.Kernel.Calls
import Epos.Spec.SemaphoreCorrect

/-!
# Mutual exclusion, ownership and hand-off

The owner field, the counter and the queue of a semaphore are updated by
different layers. `Calls.Inv` says how they hang together in every reachable
state; under it each action has one of five effects, which the later files use
in place of the code.
-/

namespace Epos

namespace Calls

variable {c : Calls} {s s' : Sid} {t t' own next : Tid} {q : List Tid}

/-- Owner, counter, queue and the threads' own view of where they are agree. -/
structure Inv (c : Calls) : Prop where
  owned : ∀ s, (c.sem s).protocol.owned
  queue_pending : ∀ s, ∀ t ∈ (c.sem s).queue, c.pending t = some s
  queue_nodup : ∀ s, (c.sem s).queue.Nodup
  inside_nodup : ∀ t, (c.inside t).Nodup
  owner_iff : ∀ s t, (c.sem s).owner = some t ↔ s ∈ c.inside t ∨ c.Woken t s
  not_both : ∀ s t, s ∈ c.inside t → ¬c.Woken t s
  free : ∀ s, (c.sem s).owner = none → (c.sem s).value = 1 ∧ (c.sem s).queue = []
  taken : ∀ s t, (c.sem s).owner = some t → (c.sem s).value = -((c.sem s).queue.length : Int)

/-- The invariant holds before any call. -/
theorem Initial.inv (h : c.Initial) (hk : ∀ s, (c.sem s).protocol.owned) : c.Inv where
  owned := hk
  queue_pending s t ht := by simp [h.queue] at ht
  queue_nodup s := by simp [h.queue]
  inside_nodup t := by simp [h.inside]
  owner_iff s t := by simp [h.owner, h.inside, Woken, h.pending]
  not_both s t ht := by simp [h.inside] at ht
  free s _ := ⟨h.value s, h.queue s⟩
  taken s t ho := by simp [h.owner] at ho

/-- A thread outside every `p()` is in no queue. -/
theorem Inv.not_queued (h : c.Inv) (ht : c.pending t = none) (s : Sid) :
    t ∉ (c.sem s).queue := by
  intro hq
  rw [h.queue_pending s t hq] at ht
  cases ht

/-- A thread in no call was not woken up. -/
theorem Inv.not_woken (ht : c.pending t = none) (s : Sid) : ¬c.Woken t s := by
  rintro ⟨hp, -⟩
  rw [ht] at hp
  cases hp

/-! ## The five effects -/

/-- `p()` on a free semaphore: the caller owns it and the call returns. -/
theorem Inv.step_p_free (h : c.Inv) (ho : (c.sem s).owner = none) :
    c.step (.p t s) =
      { c with
        priority := Function.update c.priority t
          ((c.sem s).protocol.taken (c.ceiling s) (c.priority t))
        sem := Function.update c.sem s
          { c.sem s with owner := some t, priority := c.priority t, value := 0 }
        inside := Function.update c.inside t (s :: c.inside t) } := by
  obtain ⟨hv, hq⟩ := h.free s ho
  simp only [step, Sync.p_free (h.owned s) ho, hv, hq]
  simp

/-- `p()` on a semaphore that is owned: the owner may be raised and the caller
    is queued. -/
theorem Inv.step_p_owned (h : c.Inv) (ho : (c.sem s).owner = some own) :
    c.step (.p t s) =
      let rank := Function.update c.priority own
        ((c.sem s).protocol.contended (c.ceiling s) (c.priority own) (c.priority t))
      { c with
        priority := rank
        sem := Function.update c.sem s
          { c.sem s with
            value := (c.sem s).value - 1
            queue := (c.sem s).queue.insertRank rank t }
        pending := Function.update c.pending t (some s) } := by
  have hv : (c.sem s).value < 1 := by have := h.taken s own ho; omega
  simp only [step, Sync.p_owned (h.owned s) ho, if_pos hv]
  simp [hv]

/-- `v()` with nobody queued: the semaphore is free. -/
theorem Inv.step_v_last (h : c.Inv) (ho : (c.sem s).owner = some t)
    (hq : (c.sem s).queue = []) :
    c.step (.v t s) =
      { c with
        priority := Function.update c.priority t (c.sem s).priority
        sem := Function.update c.sem s
          { c.sem s with owner := none, priority := 0, value := 1 }
        inside := Function.update c.inside t ((c.inside t).erase s) } := by
  have hv : (c.sem s).value = 0 := by have := h.taken s t ho; simpa [hq] using this
  simp only [step, Sync.v_last (h.owned s) ho hq, hv]
  simp

/-- `v()` with `next` heading the queue: `next` is woken up as the owner. -/
theorem Inv.step_v_handoff (h : c.Inv) (ho : (c.sem s).owner = some t)
    (hq : (c.sem s).queue = next :: q) :
    c.step (.v t s) =
      let rank := Function.update c.priority t (c.sem s).priority
      { c with
        priority := Function.update rank next
          ((c.sem s).protocol.taken (c.ceiling s) (rank next))
        sem := Function.update c.sem s
          { c.sem s with
            owner := some next
            priority := rank next
            value := (c.sem s).value + 1
            queue := q }
        inside := Function.update c.inside t ((c.inside t).erase s) } := by
  have hv : (c.sem s).value < 0 := by
    have := h.taken s t ho
    rw [hq, List.length_cons] at this
    omega
  simp only [step, Sync.v_handoff (h.owned s) ho hq, if_pos hv]

/-- A woken thread returns from its `p()`. -/
theorem step_ret (hw : c.Woken t s) :
    c.step (.ret t) =
      { c with
        pending := Function.update c.pending t none
        inside := Function.update c.inside t (s :: c.inside t) } := by
  simp only [step, hw.1]

/-! ## Preservation -/

/-- Who is inside owns the semaphore. -/
theorem Inv.owner_of_inside (h : c.Inv) (hs : s ∈ c.inside t) : (c.sem s).owner = some t :=
  (h.owner_iff s t).mpr (.inl hs)

/-- `p()` on a free semaphore keeps the invariant. -/
theorem Inv.preserve_p_free (h : c.Inv) (ht : c.pending t = none)
    (ho : (c.sem s).owner = none) : (c.step (.p t s)).Inv := by
  -- without an owner, nobody is inside and nobody is about to be
  have hnot (x : Tid) : s ∉ c.inside x ∧ ¬c.Woken x s := by
    have := (h.owner_iff s x).not.mp (by simp [ho])
    exact not_or.mp this
  obtain ⟨-, hq⟩ := h.free s ho
  rw [h.step_p_free ho]
  constructor <;> simp only [Woken]
  case owned =>
    intro s'
    rcases eq_or_ne s' s with rfl | hs <;> simp [h.owned, *]
  case queue_pending =>
    intro s' x hx
    rcases eq_or_ne s' s with rfl | hs
    · simp [hq] at hx
    · exact h.queue_pending s' x (by simpa [hs] using hx)
  case queue_nodup =>
    intro s'
    rcases eq_or_ne s' s with rfl | hs
    · simp [hq]
    · simpa [hs] using h.queue_nodup s'
  case inside_nodup =>
    intro x
    rcases eq_or_ne x t with rfl | hx
    · simpa using ⟨(hnot x).1, h.inside_nodup x⟩
    · simpa [hx] using h.inside_nodup x
  case owner_iff =>
    intro s' x
    rcases eq_or_ne s' s with rfl | hs
    · have hw : ¬(c.pending x = some s' ∧ x ∉ (c.sem s').queue) := (hnot x).2
      rcases eq_or_ne x t with rfl | hx
      · simp
      · simpa [hx, Ne.symm hx, (hnot x).1] using hw
    · rcases eq_or_ne x t with rfl | hx
      · simpa [hs, Woken] using h.owner_iff s' x
      · simpa [hs, hx, Woken] using h.owner_iff s' x
  case not_both =>
    intro s' x hx
    rcases eq_or_ne x t with rfl | hxt
    · simp [ht]
    · rw [Function.update_of_ne hxt] at hx
      rcases eq_or_ne s' s with rfl | hs
      · exact absurd hx (hnot x).1
      · simpa [hs, Woken] using h.not_both s' x hx
  case free =>
    intro s' hs'
    rcases eq_or_ne s' s with rfl | hs
    · simp at hs'
    · simpa [hs] using h.free s' (by simpa [hs] using hs')
  case taken =>
    intro s' x hx
    rcases eq_or_ne s' s with rfl | hs
    · simp [hq]
    · simpa [hs] using h.taken s' x (by simpa [hs] using hx)

/-- `p()` on an owned one keeps the invariant. -/
theorem Inv.preserve_p_owned (h : c.Inv) (ht : c.pending t = none)
    (ho : (c.sem s).owner = some own) : (c.step (.p t s)).Inv := by
  -- the caller joins one queue, and was in none
  have hnq := h.not_queued ht
  rw [h.step_p_owned ho]
  constructor <;> simp only [Woken]
  case owned =>
    intro s'
    rcases eq_or_ne s' s with rfl | hs <;> simp [h.owned, *]
  case queue_pending =>
    intro s' x hx
    rcases eq_or_ne s' s with rfl | hs
    · simp only [Function.update_self, List.mem_insertRank] at hx
      rcases eq_or_ne x t with rfl | hxt
      · simp
      · simpa [hxt] using h.queue_pending s' x (hx.resolve_left hxt)
    · have hx : x ∈ (c.sem s').queue := by simpa [hs] using hx
      have hxt : x ≠ t := fun heq => hnq s' (heq ▸ hx)
      simpa [hxt] using h.queue_pending s' x hx
  case queue_nodup =>
    intro s'
    rcases eq_or_ne s' s with rfl | hs
    · simpa using ⟨hnq s', h.queue_nodup s'⟩
    · simpa [hs] using h.queue_nodup s'
  case inside_nodup => exact h.inside_nodup
  case owner_iff =>
    intro s' x
    -- a caller that waits is not woken, and it owns nothing new
    have hw := h.owner_iff s' x
    have hnw := Inv.not_woken ht s'
    simp only [Woken] at hw hnw
    rcases eq_or_ne x t with rfl | hx <;> rcases eq_or_ne s' s with rfl | hs
    · simpa [hnw] using hw
    · simpa [hs, Ne.symm hs, ht] using hw
    · simpa [hx] using hw
    · simpa [hs, hx] using hw
  case not_both =>
    intro s' x hx
    have hb := h.not_both s' x hx
    simp only [Woken] at hb
    rcases eq_or_ne x t with rfl | hxt <;> rcases eq_or_ne s' s with rfl | hs
    · simp
    · simp [Ne.symm hs]
    · simpa [hxt] using hb
    · simpa [hs, hxt] using hb
  case free =>
    intro s' hs'
    rcases eq_or_ne s' s with rfl | hs
    · simp [ho] at hs'
    · simpa [hs] using h.free s' (by simpa [hs] using hs')
  case taken =>
    intro s' x hx
    rcases eq_or_ne s' s with rfl | hs
    · have := h.taken s' own ho
      simp
      omega
    · simpa [hs] using h.taken s' x (by simpa [hs] using hx)

/-- A thread that may call `v()` on `s` is its only holder. -/
theorem Inv.only_owner (h : c.Inv) (ht : s ∈ c.inside t) {x : Tid} (hx : s ∈ c.inside x) :
    x = t := by
  have h₁ := h.owner_of_inside ht
  rw [h.owner_of_inside hx] at h₁
  exact Option.some.inj h₁

/-- The lists of the semaphores that the threads are inside of, without one entry. -/
theorem Inv.inside_nodup_erase (h : c.Inv) (x : Tid) :
    (Function.update c.inside t ((c.inside t).erase s) x).Nodup := by
  rcases eq_or_ne x t with rfl | hx
  · simpa using (h.inside_nodup x).erase s
  · simpa [hx] using h.inside_nodup x

/-- Who is still inside of a semaphore after `t` has left `s` was not woken up for it. -/
theorem Inv.not_both_erase (h : c.Inv) (ht : c.pending t = none) (hs : s ∈ c.inside t) (v : Semaphore)
    {s' : Sid} {x : Tid} (hx : s' ∈ Function.update c.inside t ((c.inside t).erase s) x) :
    ¬(c.pending x = some s' ∧ x ∉ (Function.update c.sem s v s').queue) := by
  rcases eq_or_ne x t with rfl | hxt
  · simp [ht]
  · rw [Function.update_of_ne hxt] at hx
    have hb := h.not_both s' x hx
    rcases eq_or_ne s' s with rfl | hs'
    · -- nobody but the caller was inside
      exact absurd (h.only_owner hs hx) hxt
    · simpa [hs', Woken] using hb

/-- `v()` with nobody queued keeps the invariant. -/
theorem Inv.preserve_v_last (h : c.Inv) (ht : c.pending t = none) (hs : s ∈ c.inside t)
    (hq : (c.sem s).queue = []) : (c.step (.v t s)).Inv := by
  have ho := h.owner_of_inside hs
  rw [h.step_v_last ho hq]
  constructor <;> simp only [Woken]
  case owned =>
    intro s'
    rcases eq_or_ne s' s with rfl | hs <;> simp [h.owned, *]
  case queue_pending =>
    intro s' x hx
    rcases eq_or_ne s' s with rfl | hs
    · simp [hq] at hx
    · exact h.queue_pending s' x (by simpa [hs] using hx)
  case queue_nodup =>
    intro s'
    rcases eq_or_ne s' s with rfl | hs
    · simp [hq]
    · simpa [hs] using h.queue_nodup s'
  case inside_nodup => exact h.inside_nodup_erase
  case owner_iff =>
    intro s' x
    have hw := h.owner_iff s' x
    simp only [Woken] at hw
    rcases eq_or_ne s' s with rfl | hs'
    · simp only [ho, Option.some.injEq] at hw
      rcases eq_or_ne x t with rfl | hx
      · -- the caller is inside once, so it is outside after its `v()`
        simp [(h.inside_nodup x).not_mem_erase, ht]
      · have hw' := mt hw.mpr (Ne.symm hx)
        simpa [hx] using hw'
    · rcases eq_or_ne x t with rfl | hx
      · simpa [hs', List.mem_erase_of_ne hs'] using hw
      · simpa [hs', hx] using hw
  case not_both => exact fun s' x hx => h.not_both_erase ht hs _ hx
  case free =>
    intro s' hs'
    rcases eq_or_ne s' s with rfl | hs
    · simp [hq]
    · simpa [hs] using h.free s' (by simpa [hs] using hs')
  case taken =>
    intro s' x hx
    rcases eq_or_ne s' s with rfl | hs
    · simp at hx
    · simpa [hs] using h.taken s' x (by simpa [hs] using hx)

/-- `v()` that hands over keeps the invariant. -/
theorem Inv.preserve_v_handoff (h : c.Inv) (ht : c.pending t = none) (hs : s ∈ c.inside t)
    (hq : (c.sem s).queue = next :: q) : (c.step (.v t s)).Inv := by
  have ho := h.owner_of_inside hs
  have hpend : c.pending next = some s := h.queue_pending s next (by simp [hq])
  -- the next owner waits, so it is not the caller
  have hnext : next ≠ t := by
    rintro rfl
    rw [ht] at hpend
    cases hpend
  have hnd := h.queue_nodup s
  rw [hq, List.nodup_cons] at hnd
  rw [h.step_v_handoff ho hq]
  constructor <;> simp only [Woken]
  case owned =>
    intro s'
    rcases eq_or_ne s' s with rfl | hs <;> simp [h.owned, *]
  case queue_pending =>
    intro s' x hx
    rcases eq_or_ne s' s with rfl | hs
    · exact h.queue_pending s' x (by rw [hq]; exact List.mem_cons_of_mem _ (by simpa using hx))
    · exact h.queue_pending s' x (by simpa [hs] using hx)
  case queue_nodup =>
    intro s'
    rcases eq_or_ne s' s with rfl | hs
    · simpa using hnd.2
    · simpa [hs] using h.queue_nodup s'
  case inside_nodup => exact h.inside_nodup_erase
  case owner_iff =>
    intro s' x
    have hw := h.owner_iff s' x
    simp only [Woken] at hw
    rcases eq_or_ne s' s with rfl | hs'
    · simp only [ho, Option.some.injEq, hq, List.mem_cons, not_or] at hw
      rcases eq_or_ne x t with rfl | hx
      · simp [(h.inside_nodup x).not_mem_erase, ht, hnext]
      · -- only `next` gets out of the queue, and its `p()` is still pending
        have hw' := not_or.mp (mt hw.mpr (Ne.symm hx))
        rcases eq_or_ne x next with rfl | hxn
        · simp [hpend, hnd.1]
        · have := hw'.2
          simp only [hxn, not_false_eq_true, true_and] at this
          simpa [hx, Ne.symm hxn, hw'.1] using this
    · rcases eq_or_ne x t with rfl | hx
      · simpa [hs', List.mem_erase_of_ne hs'] using hw
      · simpa [hs', hx] using hw
  case not_both => exact fun s' x hx => h.not_both_erase ht hs _ hx
  case free =>
    intro s' hs'
    rcases eq_or_ne s' s with rfl | hs
    · simp at hs'
    · simpa [hs] using h.free s' (by simpa [hs] using hs')
  case taken =>
    intro s' x hx
    rcases eq_or_ne s' s with rfl | hs
    · have := h.taken s' t ho
      rw [hq, List.length_cons] at this
      simp
      omega
    · simpa [hs] using h.taken s' x (by simpa [hs] using hx)

/-- The return keeps the invariant. -/
theorem Inv.preserve_ret (h : c.Inv) (hw : c.Woken t s) : (c.step (.ret t)).Inv := by
  rw [step_ret hw]
  have ho : (c.sem s).owner = some t := (h.owner_iff s t).mpr (.inr hw)
  have hs : s ∉ c.inside t := fun hs => h.not_both s t hs hw
  constructor <;> simp only [Woken]
  case owned => exact h.owned
  case queue_pending =>
    intro s' x hx
    have hp := h.queue_pending s' x hx
    rcases eq_or_ne x t with rfl | hxt
    · -- `t` is in no queue any more.
      rw [hw.1, Option.some.injEq] at hp
      subst hp
      exact absurd hx hw.2
    · simpa [hxt] using hp
  case queue_nodup => exact h.queue_nodup
  case inside_nodup =>
    intro x
    rcases eq_or_ne x t with rfl | hx
    · simpa using ⟨hs, h.inside_nodup x⟩
    · simpa [hx] using h.inside_nodup x
  case owner_iff =>
    intro s' x
    have hi := h.owner_iff s' x
    simp only [Woken] at hi
    rcases eq_or_ne x t with rfl | hx
    · rw [hi, hw.1, Option.some.injEq]
      rcases eq_or_ne s' s with rfl | hs'
      · simp [hw.2]
      · simp [hs', Ne.symm hs']
    · simpa [hx] using hi
  case not_both =>
    intro s' x hx
    rcases eq_or_ne x t with rfl | hxt
    · simp
    · simpa [hxt, Woken] using h.not_both s' x (by simpa [hxt] using hx)
  case free => exact h.free
  case taken => exact h.taken

/-- Every call by a thread that may make it keeps the invariant. -/
theorem Inv.preserve (h : c.Inv) {a : CallAction} (ha : c.CanCall a) : (c.step a).Inv := by
  cases a with
  | p t s =>
    cases ho : (c.sem s).owner with
    | none => exact h.preserve_p_free ha ho
    | some own => exact h.preserve_p_owned ha ho
  | v t s =>
    cases hq : (c.sem s).queue with
    | nil => exact h.preserve_v_last ha.1 ha.2 hq
    | cons next q => exact h.preserve_v_handoff ha.1 ha.2 hq
  | ret t =>
    obtain ⟨s, hw⟩ := ha
    exact h.preserve_ret hw

/-- No call changes the class of a semaphore or its ceiling array. -/
theorem Inv.step_const (h : c.Inv) {a : CallAction} (ha : c.CanCall a) (s' : Sid) :
    ((c.step a).sem s').protocol = (c.sem s').protocol ∧
      ((c.step a).sem s').ceilings = (c.sem s').ceilings ∧ (c.step a).store = c.store := by
  have hself {s : Sid} {m : Semaphore} (hp : m.protocol = (c.sem s).protocol)
      (hc : m.ceilings = (c.sem s).ceilings) :
      (Function.update c.sem s m s').protocol = (c.sem s').protocol ∧
        (Function.update c.sem s m s').ceilings = (c.sem s').ceilings ∧ c.store = c.store := by
    rcases eq_or_ne s' s with rfl | hs <;> simp [*]
  cases a with
  | p t s =>
    cases ho : (c.sem s).owner with
    | none => rw [h.step_p_free ho]; exact hself rfl rfl
    | some own => rw [h.step_p_owned ho]; exact hself rfl rfl
  | v t s =>
    have ho := h.owner_of_inside ha.2
    cases hq : (c.sem s).queue with
    | nil => rw [h.step_v_last ho hq]; exact hself rfl rfl
    | cons next q => rw [h.step_v_handoff ho hq]; exact hself rfl rfl
  | ret t =>
    obtain ⟨s, hw⟩ := ha
    rw [step_ret hw]
    exact ⟨rfl, rfl, rfl⟩

/-- No step changes a protocol. -/
theorem Inv.step_protocol (h : c.Inv) {a : CallAction} (ha : c.CanCall a) (s' : Sid) :
    ((c.step a).sem s').protocol = (c.sem s').protocol :=
  (h.step_const ha s').1

/-- No step changes a ceiling. -/
theorem Inv.step_ceiling (h : c.Inv) {a : CallAction} (ha : c.CanCall a) (s' : Sid) :
    (c.step a).ceiling s' = c.ceiling s' := by
  obtain ⟨-, hc, hs⟩ := h.step_const ha s'
  simp only [Sync.ceiling, hc, hs]

/-- The thread that `nextThread()` names is the one that `wakeup()` removes. -/
theorem Inv.woken_eq_next (h : c.Inv) (hs : s ∈ c.inside t) :
    (c.toSync.v s t).2 = c.nextThread s ∧
      ((c.step (.v t s)).sem s).owner = c.nextThread s := by
  have ho := h.owner_of_inside hs
  cases hq : (c.sem s).queue with
  | nil => rw [h.step_v_last ho hq, Sync.v_last (h.owned s) ho hq]; simp [Sync.nextThread, hq]
  | cons next q =>
    have hv : (c.sem s).value < 0 := by
      have := h.taken s t ho
      rw [hq, List.length_cons] at this
      omega
    rw [h.step_v_handoff ho hq, Sync.v_handoff (h.owned s) ho hq]
    simp [Sync.nextThread, hq, hv]

end Calls

/-- The invariant holds along every run. -/
theorem ownedCalls_inv {c : Calls} (h : ownedCalls.Reachable c) : c.Inv :=
  h.invariant (fun _ hs => hs.1.inv hs.2) fun _ _ hi ha => hi.preserve ha

/-! ## Mutual exclusion -/

/-- What a semaphore promises to its callers: one holder at a time, an owner field
    and a counter that agree with the holder and the queue, and a hand-off to the
    thread that is then taken off the queue. -/
structure MutualExclusion (c : Calls) (s : Sid) : Prop where
  one_thread : ∀ t t', s ∈ c.inside t → s ∈ c.inside t' → t = t'
  one_time : ∀ t, (c.inside t).count s ≤ 1
  owner_iff : ∀ t, (c.sem s).owner = some t ↔ s ∈ c.inside t ∨ c.Woken t s
  no_owner_iff : (c.sem s).owner = none ↔ ∀ t, s ∉ c.inside t ∧ ¬c.Woken t s
  value_eq : (c.sem s).value =
    1 - (if (c.sem s).owner ≠ none then 1 else 0) - ((c.sem s).queue.length : Int)
  queued : ∀ t ∈ (c.sem s).queue, c.pending t = some s
  handoff : ∀ t, c.CanCall (.v t s) →
    (c.toSync.v s t).2 = c.nextThread s ∧
      ((c.step (.v t s)).sem s).owner = c.nextThread s

/-- PIP, IPCP, PCP and MPCP semaphores of value 1 exclude, name and hand over to
    the right thread under every interleaving. -/
theorem mutualExclusion_of_reachable (c : Calls) (h : ownedCalls.Reachable c) (s : Sid) :
    MutualExclusion c s := by
  have hi := ownedCalls_inv h
  constructor
  case one_thread => exact fun t t' ht ht' => hi.only_owner ht' ht
  case one_time => exact fun t => List.nodup_iff_count_le_one.mp (hi.inside_nodup t) s
  case owner_iff => exact hi.owner_iff s
  case no_owner_iff =>
    rw [Option.eq_none_iff_forall_ne_some]
    exact forall_congr' fun t => (not_congr (hi.owner_iff s t)).trans not_or
  case value_eq =>
    cases ho : (c.sem s).owner with
    | none => simp [hi.free s ho]
    | some t => simp [hi.taken s t ho]
  case queued => exact hi.queue_pending s
  case handoff => exact fun t ht => hi.woken_eq_next ht.2

/-- Two threads contend for one PIP semaphore and it is handed over. -/
theorem mutualExclusion_of_reachable_handoff :
    MutualExclusion
      (ownedCalls.run (Calls.start (fun t => t) (fun _ => .pip) fun _ => 0)
        [.p 2 0, .p 1 0, .v 2 0]) 0 :=
  mutualExclusion_of_reachable _
    (TransitionSystem.Valid.reachable (by decide)
      (.init ⟨Calls.start_initial _ _ _, fun _ => rfl⟩)) 0

end Epos
