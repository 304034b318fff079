import Mathlib.Logic.Function.Basic

/-!
# Recursive locks

A lock that its owner may acquire again: it is free once it has been released as
often as it was acquired. `Accounts` relates it to the releases that each of its
users still has to make; a user with a release to make is then the owner.
-/

structure RecursiveLock (ι : Type*) where
  owner : Option ι := none
  level : Nat := 0
  deriving DecidableEq, Repr

namespace RecursiveLock

variable {ι : Type*} {l : RecursiveLock ι} {i : ι}

/-- Whether `i` gets the lock or has to wait for it. -/
def CanAcquire (l : RecursiveLock ι) (i : ι) : Prop :=
  l.owner = none ∨ l.owner = some i

def acquire (l : RecursiveLock ι) (i : ι) : RecursiveLock ι :=
  { owner := some i, level := l.level + 1 }

/-- A release asks nobody whose lock it is. -/
def release (l : RecursiveLock ι) : RecursiveLock ι :=
  if l.level - 1 ≤ 0 then {} else { l with level := l.level - 1 }

instance [DecidableEq ι] (l : RecursiveLock ι) (i : ι) : Decidable (l.CanAcquire i) :=
  inferInstanceAs (Decidable (_ ∨ _))

/-- The owner has `level` releases to make, and nobody else has any. -/
structure Accounts (l : RecursiveLock ι) (due : ι → Nat) : Prop where
  level_eq : ∀ i, l.owner = some i → l.level = due i
  owner_pos : ∀ i, l.owner = some i → 0 < due i
  others : ∀ i, l.owner ≠ some i → due i = 0
  free : l.owner = none → l.level = 0

namespace Accounts

variable {due due' : ι → Nat}

theorem owner_eq (h : l.Accounts due) (hi : 0 < due i) : l.owner = some i := by
  by_contra hne
  have := h.others i hne
  omega

theorem congr (h : l.Accounts due) (hdue : ∀ i, due' i = due i) : l.Accounts due' := by
  rw [show due' = due from funext hdue]
  exact h

theorem init : ({} : RecursiveLock ι).Accounts fun _ => 0 where
  level_eq _ hi := nomatch hi
  owner_pos _ hi := nomatch hi
  others _ _ := rfl
  free _ := rfl

theorem acquire (h : l.Accounts due) (hi : l.CanAcquire i) (hown : due' i = due i + 1)
    (hothers : ∀ j, j ≠ i → due' j = due j) : (l.acquire i).Accounts due' := by
  -- the lock is free, or i has it already at this level
  have hlevel : l.level = due i := by
    by_cases ho : l.owner = some i
    · exact h.level_eq i ho
    · rw [h.others i ho]
      exact h.free (hi.resolve_right ho)
  constructor
  · intro j hj
    cases hj
    show l.level + 1 = due' i
    omega
  · intro j hj
    cases hj
    omega
  · intro j hj
    have hji : j ≠ i := fun heq => hj (congrArg some heq.symm)
    rw [hothers j hji]
    apply h.others j
    intro ho
    cases hi with
    | inl hfree => rw [hfree] at ho; cases ho
    | inr hi => rw [hi] at ho; exact hji (Option.some.inj ho).symm
  · intro hnone
    cases hnone

theorem release (h : l.Accounts due) (hi : 0 < due i) (hown : due' i = due i - 1)
    (hothers : ∀ j, j ≠ i → due' j = due j) : l.release.Accounts due' := by
  have ho := h.owner_eq hi
  have hlevel := h.level_eq i ho
  -- nobody but the owner has anything due
  have hzero (j : ι) (hj : j ≠ i) : due' j = 0 := by
    rw [hothers j hj]
    apply h.others j
    rw [ho]
    exact fun heq => hj (Option.some.inj heq).symm
  unfold RecursiveLock.release
  split
  · -- the last release frees the lock
    have hdue (j : ι) : due' j = 0 := by
      by_cases hj : j = i
      · rw [hj]
        omega
      · exact hzero j hj
    exact init.congr hdue
  · constructor
    · intro j hj
      rw [ho] at hj
      cases hj
      show l.level - 1 = due' i
      omega
    · intro j hj
      rw [ho] at hj
      cases hj
      omega
    · intro j hj
      apply hzero j
      intro heq
      exact hj (heq ▸ ho)
    · intro hnone
      rw [ho] at hnone
      cases hnone

end Accounts

end RecursiveLock
