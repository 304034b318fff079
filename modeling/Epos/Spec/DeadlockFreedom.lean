import Mathlib.Order.WellFoundedSet
import Epos.Kernel.OrderedLocking
import Epos.Spec.SemaphoreCorrect

/-!
# Ordered acquisition does not deadlock

A semaphore of value 1 that some thread holds counts the threads of its queue, and one
that nobody holds has no queue. Therefore every thread that waits does so for another one,
which waits for a later semaphore if it waits at all. Among finitely many threads this
ends.
-/

namespace Epos

namespace OrderedLocking

variable {r : OrderedLocking} {before : Sid → Sid → Prop} {t u : Tid} {s x : Sid}

/-! ## The operations -/

/-- A `p()` that finds no unit left only queues its thread. -/
theorem p_wait (hvalue : (r.sync.sem s).value < 1) :
    r.p t s = { r with sync := (SemaphoreTemplate.p r.sync s t).1 } := by
  unfold OrderedLocking.p
  simp [Sync.template_p_eq, hvalue]

/-- A `p()` that finds a unit takes the semaphore. -/
theorem p_pass (hvalue : ¬ (r.sync.sem s).value < 1) :
    r.p t s = { r with sync := (SemaphoreTemplate.p r.sync s t).1 }.acquire t s := by
  unfold OrderedLocking.p
  simp [Sync.template_p_eq, hvalue]

/-- A `v()` with nobody queued gives the semaphore back. -/
theorem v_last (hvalue : ¬ (r.sync.sem s).value < 0) :
    r.v t s = { r with sync := (SemaphoreTemplate.v r.sync s).1 }.release t s := by
  unfold OrderedLocking.v
  simp [Sync.template_v_eq, hvalue]

/-- A `v()` with a queue gives the semaphore to its head. -/
theorem v_handoff (hvalue : (r.sync.sem s).value < 0)
    (hhead : (r.sync.sem s).queue.head? = some u) :
    r.v t s = ({ r with sync := (SemaphoreTemplate.v r.sync s).1 }.release t s).acquire u s := by
  unfold OrderedLocking.v
  simp [Sync.template_v_eq, hvalue, hhead]

/-- What a thread acquires comes last among what it holds. -/
@[simp] theorem acquire_held :
    (r.acquire t s).held = Function.update r.held t (r.held t ++ [s]) := rfl

/-- `release` takes the semaphore out of what the thread holds. -/
@[simp] theorem release_held :
    (r.release t s).held = Function.update r.held t ((r.held t).erase s) := rfl

/-- Once a thread holds nothing it may acquire again. -/
@[simp] theorem release_phase :
    (r.release t s).phase = Function.update r.phase t
      (if (r.held t).erase s = [] then .acquiring else .releasing) := rfl

/-- `acquire` adds one semaphore to what one thread holds. -/
theorem mem_held_acquire {y : Tid} :
    x ∈ (r.acquire u s).held y ↔ x ∈ r.held y ∨ y = u ∧ x = s := by
  by_cases hy : y = u
  · subst hy
    simp
  · simp [hy]

/-- `release` removes that semaphore, and nothing else, from what the thread holds. -/
theorem mem_held_release {y : Tid} (hnd : (r.held t).Nodup) :
    x ∈ (r.release t s).held y ↔ x ∈ r.held y ∧ ¬ (y = t ∧ x = s) := by
  by_cases hy : y = t
  · subst hy
    simp [hnd.mem_erase_iff, and_comm]
  · simp [hy]

/-! ## The threads and the queues -/

/-- A thread waits for one semaphore, which is behind all that it holds. -/
structure Orderly (before : Sid → Sid → Prop) (r : OrderedLocking) : Prop where
  nodup : ∀ t, (r.held t).Nodup
  queue_nodup : ∀ s, (r.sync.sem s).queue.Nodup
  once : ∀ t s s', r.WaitsAt t s → r.WaitsAt t s' → s = s'
  above : ∀ t s, r.WaitsAt t s → ∀ x ∈ r.held t, before x s
  waiter : ∀ t s, r.WaitsAt t s → t ∈ r.threads ∧ r.phase t = .acquiring
  holder : ∀ t s, s ∈ r.held t → t ∈ r.threads ∧ r.phase t ≠ .finished

namespace Orderly

/-- The threads stay orderly when threads leave the queues. -/
theorem dequeue (h : r.Orderly before) {σ : Sync}
    (hqueue : ∀ s, (σ.sem s).queue.Sublist (r.sync.sem s).queue) :
    ({ r with sync := σ } : OrderedLocking).Orderly before where
  nodup := h.nodup
  queue_nodup s := (h.queue_nodup s).sublist (hqueue s)
  once t s s' ht ht' := h.once t s s' ((hqueue s).subset ht) ((hqueue s').subset ht')
  above t s ht := h.above t s ((hqueue s).subset ht)
  waiter t s ht := h.waiter t s ((hqueue s).subset ht)
  holder := h.holder

/-- The threads stay orderly when one joins a queue behind all that it holds. -/
theorem enqueue (h : r.Orderly before) {σ : Sync}
    (hself : (σ.sem s).queue.Perm (t :: (r.sync.sem s).queue))
    (hother : ∀ x, x ≠ s → (σ.sem x).queue = (r.sync.sem x).queue) (ht : t ∈ r.threads)
    (hwait : ¬ r.Waiting t) (hphase : r.phase t = .acquiring)
    (hbefore : ∀ x ∈ r.held t, before x s) :
    ({ r with sync := σ } : OrderedLocking).Orderly before := by
  -- Who waits now has waited before, or is `t`.
  have hnew (u : Tid) (x : Sid) (hu : u ∈ (σ.sem x).queue) : r.WaitsAt u x ∨ u = t ∧ x = s := by
    by_cases hx : x = s
    · subst hx
      cases List.mem_cons.mp (hself.mem_iff.mp hu) with
      | inl heq => exact .inr ⟨heq, rfl⟩
      | inr hmem => exact .inl hmem
    · rw [hother x hx] at hu
      exact .inl hu
  constructor
  · exact h.nodup
  · intro x
    show (σ.sem x).queue.Nodup
    by_cases hx : x = s
    · subst hx
      have hmem : t ∉ (r.sync.sem x).queue := fun hmem => hwait ⟨x, hmem⟩
      exact hself.nodup_iff.mpr (List.nodup_cons.mpr ⟨hmem, h.queue_nodup x⟩)
    · rw [hother x hx]
      exact h.queue_nodup x
  · intro u x y hx hy
    cases hnew u x hx with
    | inl hx' =>
      cases hnew u y hy with
      | inl hy' => exact h.once u x y hx' hy'
      | inr heq => exact absurd ⟨x, heq.1 ▸ hx'⟩ hwait
    | inr heq =>
      cases hnew u y hy with
      | inl hy' => exact absurd ⟨y, heq.1 ▸ hy'⟩ hwait
      | inr heq' => rw [heq.2, heq'.2]
  · intro u x hx
    cases hnew u x hx with
    | inl hx' => exact h.above u x hx'
    | inr heq =>
      obtain ⟨rfl, rfl⟩ := heq
      exact hbefore
  · intro u x hx
    cases hnew u x hx with
    | inl hx' => exact h.waiter u x hx'
    | inr heq => exact heq.1 ▸ ⟨ht, hphase⟩
  · exact h.holder

/-- The threads stay orderly when one that does not wait acquires a semaphore. -/
theorem acquire (h : r.Orderly before) (ht : t ∈ r.threads) (hphase : r.phase t ≠ .finished)
    (hwait : ¬ r.Waiting t) (hs : s ∉ r.held t) : (r.acquire t s).Orderly before := by
  constructor
  · intro u
    rw [acquire_held]
    by_cases hu : u = t
    · subst hu
      rw [Function.update_self, List.nodup_append_comm]
      exact List.nodup_cons.mpr ⟨hs, h.nodup u⟩
    · rw [Function.update_of_ne hu]
      exact h.nodup u
  · exact h.queue_nodup
  · exact h.once
  · intro u x hu y hy
    cases mem_held_acquire.mp hy with
    | inl hy' => exact h.above u x hu y hy'
    | inr heq => exact absurd ⟨x, heq.1 ▸ hu⟩ hwait
  · exact h.waiter
  · intro u x hx
    cases mem_held_acquire.mp hx with
    | inl hx' => exact h.holder u x hx'
    | inr heq =>
      obtain ⟨rfl, rfl⟩ := heq
      exact ⟨ht, hphase⟩

/-- The threads stay orderly when one that does not wait releases a semaphore. -/
theorem release (h : r.Orderly before) (hwait : ¬ r.Waiting t) :
    (r.release t s).Orderly before := by
  constructor
  · intro u
    rw [release_held]
    by_cases hu : u = t
    · subst hu
      rw [Function.update_self]
      exact (h.nodup u).erase s
    · rw [Function.update_of_ne hu]
      exact h.nodup u
  · exact h.queue_nodup
  · exact h.once
  · intro u x hu y hy
    exact h.above u x hu y ((mem_held_release (h.nodup t)).mp hy).1
  · intro u x hu
    -- who waits still waits, since t was not one of them
    have hne : u ≠ t := fun heq => hwait ⟨x, heq ▸ hu⟩
    rw [release_phase, Function.update_of_ne hne]
    exact h.waiter u x hu
  · intro u x hx
    obtain ⟨ht, hphase⟩ := h.holder u x ((mem_held_release (h.nodup t)).mp hx).1
    refine ⟨ht, ?_⟩
    rw [release_phase]
    -- t holds less and keeps its phase, or is done
    by_cases hu : u = t
    · subst hu
      rw [Function.update_self]
      split <;> simp
    · rw [Function.update_of_ne hu]
      exact hphase

end Orderly

/-! ## The counters -/

/-- A semaphore is either at its initial value or held by one thread, and then it counts
    those that wait for it. -/
inductive Counted (r : OrderedLocking) (s : Sid) : Prop
  | free : (∀ t, s ∉ r.held t) → (r.sync.sem s).value = 1 → (r.sync.sem s).queue = [] →
      Counted r s
  | held (own : Tid) : (∀ t, s ∈ r.held t ↔ t = own) →
      (r.sync.sem s).value = -((r.sync.sem s).queue.length : Int) → Counted r s

/-- The count only depends on the semaphore and on who holds it. -/
theorem Counted.congr {r' : OrderedLocking} (h : r.Counted s)
    (hsem : r'.sync.sem s = r.sync.sem s) (hheld : ∀ t, s ∈ r'.held t ↔ s ∈ r.held t) :
    r'.Counted s := by
  cases h with
  | free hnone hvalue hqueue =>
    exact .free (fun t => (hheld t).not.mpr (hnone t)) (by rw [hsem, hvalue]) (by rw [hsem, hqueue])
  | held own hown hvalue =>
    exact .held own (fun t => (hheld t).trans (hown t)) (by rw [hsem, hvalue])

/-- A semaphore without a unit has one holder, and its value counts the queue. -/
theorem Counted.holder (h : r.Counted s) (hvalue : (r.sync.sem s).value < 1) :
    ∃ own, (∀ t, s ∈ r.held t ↔ t = own) ∧
      (r.sync.sem s).value = -((r.sync.sem s).queue.length : Int) := by
  cases h with
  | free _ hone _ => omega
  | held own hown hvalue => exact ⟨own, hown, hvalue⟩

/-- A semaphore with a unit is held by nobody and has no queue. -/
theorem Counted.not_held (h : r.Counted s) (hvalue : ¬ (r.sync.sem s).value < 1) :
    (∀ t, s ∉ r.held t) ∧ (r.sync.sem s).value = 1 ∧ (r.sync.sem s).queue = [] := by
  cases h with
  | free hnone hone hqueue => exact ⟨hnone, hone, hqueue⟩
  | held own hown hcount => omega

/-- A semaphore that is held has one holder, and its value counts the queue. -/
theorem Counted.of_mem (h : r.Counted s) (ht : s ∈ r.held t) :
    (∀ u, s ∈ r.held u ↔ u = t) ∧
      (r.sync.sem s).value = -((r.sync.sem s).queue.length : Int) := by
  cases h with
  | free hnone _ _ => exact absurd ht (hnone t)
  | held own hown hcount =>
    obtain rfl := (hown t).mp ht
    exact ⟨hown, hcount⟩

/-- What the counters and the queues say about who holds what. -/
structure Inv (before : Sid → Sid → Prop) (r : OrderedLocking) : Prop where
  orderly : r.Orderly before
  counted : ∀ s, r.Counted s

/-- The invariant holds once threads and semaphores have been created. -/
theorem Created.inv (h : r.Created) : r.Inv before := by
  have hnone (t : Tid) (s : Sid) : s ∉ r.held t := by
    rw [h.held]
    exact List.not_mem_nil
  have hwaits (t : Tid) (s : Sid) : ¬ r.WaitsAt t s := by
    unfold WaitsAt
    rw [h.queue]
    exact List.not_mem_nil
  constructor
  · constructor
    · intro t
      rw [h.held]
      exact .nil
    · intro s
      rw [h.queue]
      exact .nil
    · exact fun t s _ hs => absurd hs (hwaits t s)
    · exact fun t s hs => absurd hs (hwaits t s)
    · exact fun t s hs => absurd hs (hwaits t s)
    · exact fun t s hs => absurd hs (hnone t s)
  · exact fun s => .free (hnone · s) (h.value s) (h.queue s)

/-! ## The steps -/

/-- `p()` leaves the other semaphores alone. -/
theorem p_sem_of_ne (hx : x ≠ s) :
    (SemaphoreTemplate.p r.sync s t).1.sem x = r.sync.sem x := by
  simp [Sync.template_p_eq, hx]

/-- `v()` leaves the other semaphores alone. -/
theorem v_sem_of_ne (hx : x ≠ s) : (SemaphoreTemplate.v r.sync s).1.sem x = r.sync.sem x := by
  simp [Sync.template_v_eq, hx]

/-- What a thread takes or leaves is no other semaphore than the one it is about. -/
theorem counted_acquire_of_ne (h : r.Counted x) (hx : x ≠ s) : (r.acquire u s).Counted x := by
  refine Counted.congr h rfl fun y => ?_
  rw [mem_held_acquire, or_iff_left fun heq => hx heq.2]

/-- Releasing `s` keeps the count of the other semaphores. -/
theorem counted_release_of_ne (h : r.Counted x) (hnd : (r.held t).Nodup) (hx : x ≠ s) :
    (r.release t s).Counted x := by
  refine Counted.congr h rfl fun y => ?_
  rw [mem_held_release hnd, and_iff_left fun heq => hx heq.2]

/-- `p()` keeps the invariant when its semaphore is behind all that the thread holds. -/
theorem Inv.p (h : r.Inv before) (ht : t ∈ r.threads) (hwait : ¬ r.Waiting t)
    (hphase : r.phase t = .acquiring) (hbefore : ∀ x ∈ r.held t, before x s) :
    (r.p t s).Inv before := by
  by_cases hvalue : (r.sync.sem s).value < 1
  · rw [p_wait hvalue]
    have hperm : ((SemaphoreTemplate.p r.sync s t).1.sem s).queue.Perm
        (t :: (r.sync.sem s).queue) := by
      simp only [Sync.template_p_eq, Sync.modify_sem, Function.update_self, if_pos hvalue]
      split
      · exact List.perm_append_singleton _ _
      · exact List.perm_insertRank _ _ _
    constructor
    · exact h.orderly.enqueue hperm (fun x hx => by rw [p_sem_of_ne hx]) ht hwait hphase hbefore
    · intro x
      by_cases hx : x = s
      · subst hx
        -- it waits for the holder of `s`
        obtain ⟨own, hown, hcount⟩ := (h.counted x).holder hvalue
        refine .held own hown ?_
        show ((SemaphoreTemplate.p r.sync x t).1.sem x).value =
          -(((SemaphoreTemplate.p r.sync x t).1.sem x).queue.length : Int)
        rw [hperm.length_eq, List.length_cons]
        simp only [Sync.template_p_eq, Sync.modify_sem, Function.update_self, hcount]
        omega
      · exact (h.counted x).congr (p_sem_of_ne hx) fun _ => .rfl
  · -- nobody holds `s`, so nobody waits for it either
    obtain ⟨hnone, hone, hqueue⟩ := (h.counted s).not_held hvalue
    rw [p_pass hvalue]
    have hkept (x : Sid) : ((SemaphoreTemplate.p r.sync s t).1.sem x).queue =
        (r.sync.sem x).queue := by
      by_cases hx : x = s
      · subst hx
        simp [Sync.template_p_eq, hvalue]
      · rw [p_sem_of_ne hx]
    have horderly : ({ r with sync := (SemaphoreTemplate.p r.sync s t).1 } :
        OrderedLocking).Orderly before :=
      h.orderly.dequeue fun x => by rw [hkept]
    have hwait' : ¬ ({ r with sync := (SemaphoreTemplate.p r.sync s t).1 } :
        OrderedLocking).Waiting t := by
      intro ⟨x, hx⟩
      have hx' : t ∈ ((SemaphoreTemplate.p r.sync s t).1.sem x).queue := hx
      rw [hkept] at hx'
      exact hwait ⟨x, hx'⟩
    constructor
    · exact horderly.acquire ht (by simp [hphase]) hwait' (hnone t)
    · intro x
      by_cases hx : x = s
      · subst hx
        refine .held t ?_ ?_
        · intro y
          rw [mem_held_acquire, or_iff_right (hnone y), and_iff_left rfl]
        · show ((SemaphoreTemplate.p r.sync x t).1.sem x).value =
            -(((SemaphoreTemplate.p r.sync x t).1.sem x).queue.length : Int)
          rw [hkept, hqueue]
          simp [Sync.template_p_eq, hone]
      · exact counted_acquire_of_ne ((h.counted x).congr (p_sem_of_ne hx) fun _ => .rfl) hx

/-- `v()` keeps the invariant when its thread holds the semaphore. -/
theorem Inv.v (h : r.Inv before) (hwait : ¬ r.Waiting t) (hs : s ∈ r.held t) :
    (r.v t s).Inv before := by
  obtain ⟨hown, hcount⟩ := (h.counted s).of_mem hs
  have hnd := h.orderly.nodup t
  have hsub (x : Sid) : ((SemaphoreTemplate.v r.sync s).1.sem x).queue.Sublist
      (r.sync.sem x).queue := by
    by_cases hx : x = s
    · subst hx
      simp only [Sync.template_v_eq, Sync.modify_sem, Function.update_self]
      split
      · exact List.tail_sublist _
      · exact List.Sublist.refl _
    · rw [v_sem_of_ne hx]
  have horderly : ({ r with sync := (SemaphoreTemplate.v r.sync s).1 } :
      OrderedLocking).Orderly before := h.orderly.dequeue hsub
  have hwait' : ¬ ({ r with sync := (SemaphoreTemplate.v r.sync s).1 } :
      OrderedLocking).Waiting t := fun ⟨x, hx⟩ => hwait ⟨x, (hsub x).subset hx⟩
  have hreleased := horderly.release (s := s) hwait'
  have hnone (y : Tid) : s ∉ (({ r with sync := (SemaphoreTemplate.v r.sync s).1 } :
      OrderedLocking).release t s).held y := by
    intro hmem
    obtain ⟨hy, hne⟩ := (mem_held_release hnd).mp hmem
    exact hne ⟨(hown y).mp hy, rfl⟩
  have hother (x : Sid) (hx : x ≠ s) : (({ r with sync := (SemaphoreTemplate.v r.sync s).1 } :
      OrderedLocking).release t s).Counted x :=
    counted_release_of_ne ((h.counted x).congr (v_sem_of_ne hx) fun _ => .rfl) hnd hx
  cases hqueue : (r.sync.sem s).queue with
  | nil =>
    have hvalue : ¬ (r.sync.sem s).value < 0 := by
      rw [hcount, hqueue]
      simp
    rw [v_last hvalue]
    constructor
    · exact hreleased
    · intro x
      by_cases hx : x = s
      · subst hx
        refine .free hnone ?_ ?_
        · show ((SemaphoreTemplate.v r.sync x).1.sem x).value = 1
          simp [Sync.template_v_eq, hcount, hqueue]
        · show ((SemaphoreTemplate.v r.sync x).1.sem x).queue = []
          simp [Sync.template_v_eq, hqueue]
      · exact hother x hx
  | cons u q =>
    have hvalue : (r.sync.sem s).value < 0 := by
      rw [hcount, hqueue, List.length_cons]
      omega
    have hu : r.WaitsAt u s := by
      unfold WaitsAt
      rw [hqueue]
      exact List.mem_cons_self
    have hut : u ≠ t := fun heq => hwait ⟨s, heq ▸ hu⟩
    have hq : ((SemaphoreTemplate.v r.sync s).1.sem s).queue = q := by
      simp [Sync.template_v_eq, hvalue, hqueue]
    rw [v_handoff hvalue (by rw [hqueue]; rfl)]
    obtain ⟨hthread, hphase⟩ := h.orderly.waiter u s hu
    -- The woken thread is on no queue any more.
    have hwoken : ¬ (({ r with sync := (SemaphoreTemplate.v r.sync s).1 } :
        OrderedLocking).release t s).Waiting u := by
      intro ⟨x, hx⟩
      have hx' : r.WaitsAt u x := (hsub x).subset hx
      obtain rfl := h.orderly.once u x s hx' hu
      have hmem : u ∈ q := hq ▸ hx
      have hnodup := h.orderly.queue_nodup x
      rw [hqueue] at hnodup
      exact (List.nodup_cons.mp hnodup).1 hmem
    constructor
    · apply hreleased.acquire hthread _ hwoken (hnone u)
      rw [release_phase, Function.update_of_ne hut]
      simp [hphase]
    · intro x
      by_cases hx : x = s
      · subst hx
        refine .held u ?_ ?_
        · intro y
          rw [mem_held_acquire, or_iff_right (hnone y), and_iff_left rfl]
        · show ((SemaphoreTemplate.v r.sync x).1.sem x).value =
            -(((SemaphoreTemplate.v r.sync x).1.sem x).queue.length : Int)
          rw [hq]
          simp [Sync.template_v_eq, hcount, hqueue]
      · exact counted_acquire_of_ne (hother x hx) hx

/-- A thread that holds nothing may finish. -/
theorem Inv.finish (h : r.Inv before) (hwait : ¬ r.Waiting t) (hheld : r.held t = []) :
    (r.step (.finish t)).Inv before := by
  obtain ⟨horderly, hcounted⟩ := h
  refine ⟨⟨horderly.nodup, horderly.queue_nodup, horderly.once, horderly.above, ?_, ?_⟩, ?_⟩
  · intro u x hu
    have hne : u ≠ t := fun heq => hwait ⟨x, heq ▸ hu⟩
    show u ∈ r.threads ∧ Function.update r.phase t .finished u = .acquiring
    rw [Function.update_of_ne hne]
    exact horderly.waiter u x hu
  · intro u x hx
    have hne : u ≠ t := by
      intro heq
      have hx' : x ∈ r.held t := heq ▸ hx
      rw [hheld] at hx'
      cases hx'
    show u ∈ r.threads ∧ Function.update r.phase t .finished u ≠ .finished
    rw [Function.update_of_ne hne]
    exact horderly.holder u x hx
  · exact fun x => (hcounted x).congr rfl fun _ => .rfl

/-- Every step keeps the invariant. -/
theorem Inv.step {a : LockingAction} (h : r.Inv before) (ha : r.CanAct before a) :
    (r.step a).Inv before := by
  cases a with
  | p t s =>
    obtain ⟨ht, hwait, hphase, hbefore⟩ := ha
    exact h.p ht hwait hphase hbefore
  | v t s =>
    obtain ⟨-, hwait, hs⟩ := ha
    exact h.v hwait hs
  | finish t =>
    obtain ⟨-, hwait, hheld⟩ := ha
    exact h.finish hwait hheld

/-- The invariant holds in every reachable state. -/
theorem inv_reachable (h : (system before).Reachable r) : r.Inv before :=
  h.invariant (fun _ hinit => hinit.inv) fun _ _ hinv ha => hinv.step ha

/-! ## No deadlock -/

def Unfinished (r : OrderedLocking) (t : Tid) : Prop := t ∈ r.threads ∧ r.phase t ≠ .finished

/-- Somebody is not finished, and all who are not wait. -/
def Deadlocked (r : OrderedLocking) : Prop :=
  (∃ t, r.Unfinished t) ∧ ∀ t, r.Unfinished t → r.Waiting t

/-- Only finitely many semaphores are waited for. -/
theorem Inv.finite_waited (h : r.Inv before) : {s | ∃ t ∈ r.threads, r.WaitsAt t s}.Finite := by
  have hunion : {s | ∃ t ∈ r.threads, r.WaitsAt t s} =
      ⋃ t ∈ {t | t ∈ r.threads}, {s | r.WaitsAt t s} := by
    ext s
    simp
  rw [hunion]
  apply (List.finite_toSet r.threads).biUnion
  intro t _
  exact Set.Subsingleton.finite fun s hs s' hs' => h.orderly.once t s s' hs hs'

/-- Of the semaphores that are waited for one is the last. Who holds it does not wait. -/
theorem Inv.not_deadlocked [IsStrictTotalOrder Sid before] (h : r.Inv before) :
    ¬ r.Deadlocked := by
  intro ⟨⟨t, ht⟩, hall⟩
  obtain ⟨s, hs⟩ := hall t ht
  have hlast := h.finite_waited.wellFoundedOn (r := Function.swap before)
  apply hlast.induction (x := s) (P := fun _ => False) ⟨t, ht.1, hs⟩
  intro s ⟨t, _, hs⟩ ih
  cases h.counted s with
  | free _ _ hqueue =>
    unfold WaitsAt at hs
    rw [hqueue] at hs
    cases hs
  | held own hown _ =>
    have hheld : s ∈ r.held own := (hown own).mpr rfl
    have hunfinished := h.orderly.holder own s hheld
    obtain ⟨s', hs'⟩ := hall own hunfinished
    exact ih s' ⟨own, hunfinished.1, hs'⟩ (h.orderly.above own s' hs' s hheld)

/-- No semaphore has two holders. -/
theorem Inv.unique_holder (h : r.Inv before) (ht : s ∈ r.held t) (hu : s ∈ r.held u) : t = u := by
  obtain ⟨hown, -⟩ := (h.counted s).of_mem ht
  exact ((hown u).mp hu).symm

/-- Whatever the threads, the semaphores, their order and the interleaving, there is no
    deadlock, and no semaphore is held by two threads. -/
theorem ordered_acquisition [IsStrictTotalOrder Sid before] (h : (system before).Reachable r) :
    ¬ r.Deadlocked ∧ ∀ s t u, s ∈ r.held t → s ∈ r.held u → t = u := by
  have hinv := inv_reachable h
  exact ⟨hinv.not_deadlocked, fun _ _ _ => hinv.unique_holder⟩

/-- Two threads and new semaphores. -/
def table : OrderedLocking where
  sync := { priority := fun _ => 0, sem := fun _ => { protocol := .plain }, store := fun _ _ => 0 }
  threads := [1, 2]

/-- New semaphores have one unit each, and nobody holds or awaits them. -/
theorem table_created : table.Created := by
  constructor <;> intro _ <;> rfl

/-- Who finds a semaphore free does not wait, and nobody else begins to. -/
theorem waitsAt_p_pass (hvalue : ¬ (r.sync.sem s).value < 1) :
    (r.p t s).WaitsAt u x ↔ r.WaitsAt u x := by
  unfold WaitsAt
  rw [p_pass hvalue]
  show u ∈ ((SemaphoreTemplate.p r.sync s t).1.sem x).queue ↔ _
  by_cases hx : x = s
  · subst hx
    simp [Sync.template_p_eq, hvalue]
  · simp [Sync.template_p_eq, hx]

/-- The threads `1` and `2` have the semaphores `0` and `1`, and the thread `1` waits for the later
    one with the earlier one in its hands. -/
theorem ordered_acquisition_example :
    (((table.p 1 0).p 2 1).p 1 1).WaitsAt 1 1 ∧ 0 ∈ (((table.p 1 0).p 2 1).p 1 1).held 1 ∧
      ¬ (((table.p 1 0).p 2 1).p 1 1).Deadlocked := by
  have hinit : (system (· < ·)).Reachable table := .init table_created
  have hidle (t : Tid) : ¬ table.Waiting t := fun ⟨s, hs⟩ => List.not_mem_nil hs
  have hidle₁ (t : Tid) : ¬ (table.p 1 0).Waiting t :=
    fun ⟨s, hs⟩ => hidle t ⟨s, (waitsAt_p_pass (by decide)).mp hs⟩
  have hidle₂ (t : Tid) : ¬ ((table.p 1 0).p 2 1).Waiting t :=
    fun ⟨s, hs⟩ => hidle₁ t ⟨s, (waitsAt_p_pass (by decide)).mp hs⟩
  have hcan : (system (· < ·)).Enabled table (.p 1 0) :=
    ⟨by decide, hidle 1, rfl, List.forall_mem_nil _⟩
  have hcan₁ : (system (· < ·)).Enabled (table.p 1 0) (.p 2 1) :=
    ⟨by decide, hidle₁ 2, rfl, List.forall_mem_nil _⟩
  have hcan₂ : (system (· < ·)).Enabled ((table.p 1 0).p 2 1) (.p 1 1) :=
    ⟨by decide, hidle₂ 1, rfl, by decide⟩
  have hreach : (system (· < ·)).Reachable (((table.p 1 0).p 2 1).p 1 1) :=
    ((hinit.step hcan).step hcan₁).step hcan₂
  exact ⟨by decide, by decide, (ordered_acquisition hreach).1⟩

end OrderedLocking

end Epos
