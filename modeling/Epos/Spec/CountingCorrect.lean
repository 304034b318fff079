import Epos.Kernel.Counting
import Epos.Spec.SemaphoreCorrect

/-!
# Counting semaphores lose nothing

The counter of a semaphore is the number of tokens less the number of `p()` calls,
and its queue holds those calls that are beyond the tokens. The destructor of a thread
that waits takes the thread off the queue and leaves the counter as it is, so that a
later `v()` finds a negative counter and nobody to wake up.
-/

namespace Epos

namespace Counting

variable {c : Counting} {s : Sid} {t : Tid}

/-- An `int` that fits does not wrap. -/
theorem toInt_of_range {x : Int} (hmin : intMin ≤ x) (hmax : x ≤ intMax) : toInt x = x := by
  unfold toInt
  unfold intMin at hmin
  unfold intMax at hmax
  rw [Int.bmod_eq_of_le] <;> omega

/-- Behind the greatest `int` comes the least. -/
theorem toInt_intMax_succ : toInt (intMax + 1) = intMin := by decide

/-- Before the least `int` comes the greatest. -/
theorem toInt_intMin_pred : toInt (intMin - 1) = intMax := by decide

/-- As many threads are queued as the counter is below zero, and the `p()` calls that
    are complete are those that there are tokens for. -/
structure LosesNothing (c : Counting) (s : Sid) : Prop where
  queued : ((c.sync.sem s).queue.length : Int) = max 0 (-(c.sync.sem s).value)
  completed : (c.completed : Int) = min (c.started : Int) (c.initial + c.released)

/-- No waiting thread is deleted and the counter does not overflow. -/
def Keeps (c : Counting) (s : Sid) : CountingAction → Prop
  | .p _ => intMin < (c.sync.sem s).value
  | .v => (c.sync.sem s).value < intMax
  | .delete _ => False

instance (c : Counting) (s : Sid) (a : CountingAction) : Decidable (c.Keeps s a) :=
  match a with
  | .p _ => inferInstanceAs (Decidable (intMin < (c.sync.sem s).value))
  | .v => inferInstanceAs (Decidable ((c.sync.sem s).value < intMax))
  | .delete _ => isFalse id

/-- The counter in terms of the calls. -/
structure Inv (c : Counting) (s : Sid) : Prop where
  value : (c.sync.sem s).value = c.initial + c.released - c.started
  queued : ((c.sync.sem s).queue.length : Int) = max 0 (-(c.sync.sem s).value)
  started : c.completed + (c.sync.sem s).queue.length = c.started
  min_le : intMin ≤ (c.sync.sem s).value
  le_max : (c.sync.sem s).value ≤ intMax

/-- The invariant holds for a new semaphore. -/
theorem Created.inv (h : c.Created s) : c.Inv s where
  value := by
    rw [h.value, h.released, h.started]
    simp
  queued := by
    rw [h.queue, h.value]
    have := h.nonneg
    simp only [List.length_nil]
    omega
  started := by
    rw [h.queue, h.completed, h.started]
    rfl
  min_le := by
    rw [h.value]
    exact le_trans (by decide) h.nonneg
  le_max := h.value ▸ h.le_max

/-- The invariant gives what is claimed of every state. -/
theorem Inv.losesNothing (h : c.Inv s) : c.LosesNothing s where
  queued := h.queued
  completed := by
    have hvalue := h.value
    have hqueued := h.queued
    have hstarted := h.started
    omega

/-! ## The operations -/

/-- `p()` decrements the counter. -/
theorem p_value : ((c.p s t).sync.sem s).value = toInt ((c.sync.sem s).value - 1) := by
  simp [Counting.p, wrap, Sync.template_p_eq]

/-- `p()` queues its thread if there was no unit. -/
theorem p_length : ((c.p s t).sync.sem s).queue.length =
    if (c.sync.sem s).value < 1 then (c.sync.sem s).queue.length + 1
    else (c.sync.sem s).queue.length := by
  simp only [Counting.p, wrap, Sync.template_p_eq, Sync.modify_sem, Function.update_self]
  split
  · split <;> simp
  · rfl

/-- `p()` completes if there is a unit. -/
theorem p_completed : (c.p s t).completed =
    if (c.sync.sem s).value < 1 then c.completed else c.completed + 1 := by
  simp [Counting.p, Sync.template_p_eq]

/-- `v()` increments the counter. -/
theorem v_value : ((c.v s).sync.sem s).value = toInt ((c.sync.sem s).value + 1) := by
  simp [Counting.v, wrap, Sync.template_v_eq]

/-- `v()` takes a thread off the queue. -/
theorem v_length : ((c.v s).sync.sem s).queue.length =
    if (c.sync.sem s).value < 0 then (c.sync.sem s).queue.length - 1
    else (c.sync.sem s).queue.length := by
  simp only [Counting.v, wrap, Sync.template_v_eq, Sync.modify_sem, Function.update_self]
  split <;> simp

/-- The `p()` of that thread completes. -/
theorem v_completed : (c.v s).completed =
    if (c.sync.sem s).value < 0 ∧ (c.sync.sem s).queue ≠ [] then c.completed + 1
    else c.completed := by
  simp only [Counting.v, Sync.template_v_eq]
  cases (c.sync.sem s).queue <;> by_cases h : (c.sync.sem s).value < 0 <;> simp [h]

/-- A `v()` on a negative counter hands its token to a thread of the queue. -/
theorem Inv.queue_ne_nil (h : c.Inv s) (hneg : (c.sync.sem s).value < 0) :
    (c.sync.sem s).queue ≠ [] := by
  intro hnil
  have hqueued := h.queued
  rw [hnil] at hqueued
  simp only [List.length_nil] at hqueued
  omega

/-- `p()` keeps the invariant unless the counter wraps. -/
theorem Inv.p (h : c.Inv s) (hv : intMin < (c.sync.sem s).value) : (c.p s t).Inv s := by
  have hmax := h.le_max
  have hvalue : ((c.p s t).sync.sem s).value = (c.sync.sem s).value - 1 := by
    rw [p_value, toInt_of_range] <;> omega
  have hlen := p_length (c := c) (s := s) (t := t)
  have hcompleted := p_completed (c := c) (s := s) (t := t)
  have hstarted : (c.p s t).started = c.started + 1 := rfl
  have hinitial : (c.p s t).initial = c.initial := rfl
  have hreleased : (c.p s t).released = c.released := rfl
  have h₁ := h.value
  have h₂ := h.queued
  have h₃ := h.started
  by_cases hlt : (c.sync.sem s).value < 1
  · rw [if_pos hlt] at hlen hcompleted
    constructor <;> omega
  · rw [if_neg hlt] at hlen hcompleted
    constructor <;> omega

/-- `v()` keeps the invariant unless the counter wraps. -/
theorem Inv.v (h : c.Inv s) (hv : (c.sync.sem s).value < intMax) : (c.v s).Inv s := by
  have hmin := h.min_le
  have hvalue : ((c.v s).sync.sem s).value = (c.sync.sem s).value + 1 := by
    rw [v_value, toInt_of_range] <;> omega
  have hlen := v_length (c := c) (s := s)
  have hcompleted := v_completed (c := c) (s := s)
  have hstarted : (c.v s).started = c.started := rfl
  have hinitial : (c.v s).initial = c.initial := rfl
  have hreleased : (c.v s).released = c.released + 1 := rfl
  have h₁ := h.value
  have h₂ := h.queued
  have h₃ := h.started
  by_cases hneg : (c.sync.sem s).value < 0
  · rw [if_pos hneg] at hlen
    rw [if_pos ⟨hneg, h.queue_ne_nil hneg⟩] at hcompleted
    constructor <;> omega
  · rw [if_neg hneg] at hlen
    rw [if_neg fun hc => hneg hc.1] at hcompleted
    constructor <;> omega

/-- Every step keeps the invariant unless the counter wraps. -/
theorem Inv.step (h : c.Inv s) {a : CountingAction} (hk : c.Keeps s a) : (c.step s a).Inv s := by
  cases a with
  | p t => exact h.p hk
  | v => exact h.v hk
  | delete t => exact hk.elim

/-- Deleting a waiting thread takes it off the queue and leaves the counter. -/
theorem Inv.not_queued_delete (h : c.Inv s) (ht : t ∈ (c.sync.sem s).queue) :
    ¬(c.delete s t).LosesNothing s := by
  intro hl
  have hqueued := hl.queued
  have hvalue : ((c.delete s t).sync.sem s).value = (c.sync.sem s).value := by
    simp [delete]
  have hlen : ((c.delete s t).sync.sem s).queue.length = (c.sync.sem s).queue.length - 1 := by
    simp [delete, List.length_erase_of_mem ht]
  have hpos := List.length_pos_of_mem ht
  have := h.queued
  omega

/-- A step loses nothing exactly if the counter does not wrap. -/
theorem Inv.step_iff (h : c.Inv s) {a : CountingAction} (ha : c.CanAct s a) :
    (c.step s a).LosesNothing s ↔ c.Keeps s a := by
  constructor
  · intro hl
    have hqueued := hl.queued
    cases a with
    | p t =>
      -- the counter wraps to a positive value while the caller is queued
      by_contra hk
      have heq : (c.sync.sem s).value = intMin := le_antisymm (not_lt.mp hk) h.min_le
      change (((c.p s t).sync.sem s).queue.length : Int) = max 0 (-((c.p s t).sync.sem s).value)
        at hqueued
      rw [p_value, heq, toInt_intMin_pred, p_length, heq, if_pos (by decide)] at hqueued
      unfold intMax at hqueued
      omega
    | v =>
      -- the counter wraps to a negative value while nobody is queued
      by_contra hk
      have heq : (c.sync.sem s).value = intMax := le_antisymm h.le_max (not_lt.mp hk)
      change (((c.v s).sync.sem s).queue.length : Int) = max 0 (-((c.v s).sync.sem s).value)
        at hqueued
      have hlen := h.queued
      rw [v_value, heq, toInt_intMax_succ, v_length, heq, if_neg (by decide)] at hqueued
      rw [heq] at hlen
      unfold intMin at hqueued
      unfold intMax at hlen
      omega
    | delete t => exact h.not_queued_delete ha hl
  · exact fun hk => (h.step hk).losesNothing

end Counting

open Counting

/-- For every semaphore created with a value that is not negative and every
    interleaving of `p()`, `v()` and deletions of waiting threads: nothing is lost in
    any state exactly if no waiting thread is deleted and the counter never overflows. -/
theorem losesNothing_iff_keeps {c : Counting} {s : Sid} (h : c.Created s)
    (as : List CountingAction) (hv : (system s).Valid c as) :
    (system s).Always (LosesNothing · s) c as ↔ (system s).Meets (Keeps · s) c as :=
  TransitionSystem.always_iff_meets_inv (I := (Inv · s)) (fun _ h => h.losesNothing)
    (fun _ _ h _ hk => h.step hk) (fun _ _ h ha => h.step_iff ha) h.inv hv

/-- A semaphore of value 1. -/
def countingExample : Counting where
  sync := { priority := fun t => t, sem := fun _ => { protocol := .plain }, store := fun _ _ => 0 }
  initial := 1

/-- The semaphore of the example is new. -/
theorem countingExample_created : countingExample.Created 0 :=
  ⟨rfl, rfl, by decide, by decide, rfl, rfl, rfl⟩

/-- Three threads ask for the token, and the token is given back twice. -/
theorem losesNothing_iff_keeps_three :
    (system 0).Always (LosesNothing · 0) countingExample [.p 1, .p 2, .p 3, .v, .v] :=
  (losesNothing_iff_keeps countingExample_created _ (by decide)).mpr (by decide)

/-- A waiting thread is deleted: the queue is empty and the counter is negative, and
    the next `v()` is lost. -/
theorem not_losesNothing_of_delete :
    countingExample.Created 0 ∧ (system 0).Valid countingExample
        [.p 1, .p 2, .delete 2, .v, .p 1] ∧
      ¬(system 0).Always (LosesNothing · 0) countingExample [.p 1, .p 2, .delete 2] ∧
      ¬LosesNothing ((system 0).run countingExample [.p 1, .p 2, .delete 2, .v, .p 1]) 0 := by
  refine ⟨countingExample_created, by decide, fun h => ?_, fun h => ?_⟩
  · exact absurd h.last.queued (by decide)
  · exact absurd h.completed (by decide)

end Epos
