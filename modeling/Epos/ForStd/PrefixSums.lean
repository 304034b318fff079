import Mathlib.Algebra.BigOperators.Group.List.Basic
import Mathlib.Algebra.Ring.Int.Defs
import Mathlib.Data.List.Nodup
import Mathlib.Logic.Function.Basic

/-!
# Lists with relative ranks

Elements with a rank that is stored as the difference to the element in front. The
absolute rank of an element is the sum of the ranks up to and including its own.
Nothing here mentions the kernel.
-/

namespace List

variable {α : Type*}

/-- Along the list, the sum of `b` and the ranks so far is `total`. -/
def PrefixSums (rank total : α → Int) : Int → List α → Prop
  | _, [] => True
  | b, x :: xs => total x = b + rank x ∧ PrefixSums rank total (total x) xs

/-- What the ranks of the list add up to, if the first is relative to `b`. -/
def lastTotal (total : α → Int) (b : Int) (l : List α) : Int := (l.getLast?.map total).getD b

variable {rank rank' total total' : α → Int} {b n : Int} {l l₁ l₂ : List α} {x y e : α}

@[simp] theorem lastTotal_nil : [].lastTotal total b = b := rfl

theorem lastTotal_cons : (x :: l).lastTotal total b = l.lastTotal total (total x) := by
  unfold lastTotal
  rw [getLast?_cons]
  cases l.getLast? <;> rfl

theorem PrefixSums.congr (h : l.PrefixSums rank total b) (hrank : ∀ x ∈ l, rank' x = rank x)
    (htotal : ∀ x ∈ l, total' x = total x) : l.PrefixSums rank' total' b := by
  induction l generalizing b with
  | nil => trivial
  | cons x xs ih =>
    refine ⟨?_, ?_⟩
    · rw [htotal x mem_cons_self, hrank x mem_cons_self]
      exact h.1
    · rw [htotal x mem_cons_self]
      exact ih h.2 (fun y hy => hrank y (mem_cons_of_mem _ hy))
        fun y hy => htotal y (mem_cons_of_mem _ hy)

theorem prefixSums_append :
    (l₁ ++ l₂).PrefixSums rank total b ↔
      l₁.PrefixSums rank total b ∧ l₂.PrefixSums rank total (l₁.lastTotal total b) := by
  induction l₁ generalizing b with
  | nil => simp [PrefixSums]
  | cons x xs ih => simp only [cons_append, PrefixSums, ih, lastTotal_cons, and_assoc]

theorem prefixSums_iff :
    l.PrefixSums rank total b ↔
      ∀ as x bs, l = as ++ x :: bs → b + ((as ++ [x]).map rank).sum = total x := by
  induction l generalizing b with
  | nil => simp [PrefixSums]
  | cons y ys ih =>
    constructor
    · intro h as x bs heq
      -- the part in front of x is empty, or begins with y and the rest has the larger start
      cases as with
      | nil =>
        obtain ⟨rfl, -⟩ := cons.inj heq
        rw [nil_append, map_cons, map_nil, sum_singleton]
        exact h.1.symm
      | cons z zs =>
        obtain ⟨rfl, hys⟩ := cons.inj heq
        have hrest := ih.mp h.2 zs x bs hys
        rw [cons_append, map_cons, sum_cons, ← hrest, h.1]
        omega
    · intro h
      have hy := h [] y ys rfl
      rw [nil_append, map_cons, map_nil, sum_singleton] at hy
      refine ⟨hy.symm, ih.mpr fun as x bs heq => ?_⟩
      have hx := h (y :: as) x bs (by rw [heq, cons_append])
      rw [cons_append, map_cons, sum_cons] at hx
      omega

/-- The ranks determine the totals. -/
theorem PrefixSums.unique (h : l.PrefixSums rank total b) (h' : l.PrefixSums rank total' b)
    (hx : x ∈ l) : total x = total' x := by
  obtain ⟨as, bs, heq⟩ := append_of_mem hx
  rw [← prefixSums_iff.mp h as x bs heq, ← prefixSums_iff.mp h' as x bs heq]

/-- The head can be moved, and everything behind it moves along. -/
theorem PrefixSums.shift (h : (x :: l).PrefixSums rank total b)
    (hx : rank' x = rank x - n) (hrank : ∀ y ∈ l, rank' y = rank y)
    (htotal : ∀ y ∈ x :: l, total' y = total y - n) : (x :: l).PrefixSums rank' total' b := by
  have htail (l : List α) {b : Int} (h : l.PrefixSums rank total b)
      (hrank : ∀ y ∈ l, rank' y = rank y) (htotal : ∀ y ∈ l, total' y = total y - n) :
      l.PrefixSums rank' total' (b - n) := by
    induction l generalizing b with
    | nil => trivial
    | cons y ys ih =>
      have hy := htotal y mem_cons_self
      refine ⟨?_, hy ▸ ih h.2 (fun z hz => hrank z (mem_cons_of_mem _ hz))
        fun z hz => htotal z (mem_cons_of_mem _ hz)⟩
      rw [hy, hrank y mem_cons_self, h.1]
      omega
  have htotalx := htotal x mem_cons_self
  refine ⟨?_, htotalx ▸ htail l h.2 hrank fun y hy => htotal y (mem_cons_of_mem _ hy)⟩
  rw [htotalx, hx, h.1]
  omega

variable [DecidableEq α]

/-- Only the element behind a gap notices what is put into it. -/
theorem PrefixSums.regap {c d : Int} (h : l.PrefixSums rank total c) (hnd : l.Nodup)
    (hrank : ∀ x ∈ l, rank' x = if l.head? = some x then rank x + c - d else rank x) :
    l.PrefixSums rank' total d := by
  cases l with
  | nil => trivial
  | cons x xs =>
    obtain ⟨hx, -⟩ := nodup_cons.mp hnd
    constructor
    · rw [hrank x mem_cons_self, if_pos head?_cons, h.1]
      omega
    · apply h.2.congr _ fun _ _ => rfl
      intro y hy
      have hne : x ≠ y := fun heq => hx (heq ▸ hy)
      rw [hrank y (mem_cons_of_mem _ hy), if_neg (by simpa using hne)]

/-- A new element gets what it adds to those in front, and the next one loses it. -/
theorem PrefixSums.insert (h : (l₁ ++ l₂).PrefixSums rank total b) (hnd : (l₁ ++ l₂).Nodup)
    (he : total e = l₁.lastTotal total b + rank' e)
    (hrank : ∀ x ∈ l₁ ++ l₂, rank' x = if l₂.head? = some x then rank x - rank' e else rank x) :
    (l₁ ++ e :: l₂).PrefixSums rank' total b := by
  obtain ⟨h₁, h₂⟩ := prefixSums_append.mp h
  obtain ⟨-, hnd₂, hdisj⟩ := nodup_append.mp hnd
  apply prefixSums_append.mpr
  refine ⟨h₁.congr ?_ fun _ _ => rfl, he, h₂.regap hnd₂ ?_⟩
  · intro x hx
    have hne : l₂.head? ≠ some x := fun heq => hdisj x hx x (mem_of_mem_head? heq) rfl
    rw [hrank x (mem_append_left _ hx), if_neg hne]
  · intro x hx
    rw [hrank x (mem_append_right _ hx), he]
    split <;> omega

/-- The element behind a removed one takes over its rank. -/
theorem PrefixSums.remove (h : (l₁ ++ e :: l₂).PrefixSums rank total b)
    (hnd : (l₁ ++ e :: l₂).Nodup)
    (hrank : ∀ x, rank' x = if l₂.head? = some x then rank x + rank e else rank x) :
    (l₁ ++ l₂).PrefixSums rank' total b := by
  obtain ⟨h₁, he, h₂⟩ := prefixSums_append.mp h
  obtain ⟨-, hnd₂, hdisj⟩ := nodup_append.mp hnd
  apply prefixSums_append.mpr
  refine ⟨h₁.congr ?_ fun _ _ => rfl, h₂.regap (nodup_cons.mp hnd₂).2 ?_⟩
  · intro x hx
    have hne : l₂.head? ≠ some x := fun heq =>
      hdisj x hx x (mem_cons_of_mem _ (mem_of_mem_head? heq)) rfl
    rw [hrank x, if_neg hne]
  · intro x hx
    rw [hrank x, he]
    split <;> omega

end List
