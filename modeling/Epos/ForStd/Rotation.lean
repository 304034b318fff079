import Mathlib.Data.List.Nodup
import Mathlib.Data.List.Perm.Subperm
import Mathlib.Data.List.Range

/-!
# Sorting a queue by going round

The elements of a queue have distinct indices. The head goes to the output if its index
is the next one that is wanted, and to the back of the queue otherwise. That ends if the
indices have no gap, and then the output is sorted; below a gap it goes round for ever.
-/

namespace List

variable {α : Type*} {idx : α → Nat} {fuel i g : Nat} {l t r a c : List α} {x : α}

/-- The output once the queue is empty, with a bound on the number of rounds. -/
def rotateSort (idx : α → Nat) : Nat → Nat → List α → List α → Option (List α)
  | 0, _, _, _ => none
  | _ + 1, _, [], t => some t
  | fuel + 1, i, x :: xs, t =>
    if idx x = i then rotateSort idx fuel (i + 1) xs (t ++ [x])
    else rotateSort idx fuel i (xs ++ [x]) t

/-- Below any of them, all indices are taken. -/
def Gapless (idx : α → Nat) (l : List α) : Prop := ∀ x ∈ l, ∀ g < idx x, ∃ y ∈ l, idx y = g

@[simp] theorem rotateSort_nil : rotateSort idx (fuel + 1) i [] t = some t := rfl

theorem rotateSort_cons {xs : List α} : rotateSort idx (fuel + 1) i (x :: xs) t =
    if idx x = i then rotateSort idx fuel (i + 1) xs (t ++ [x])
    else rotateSort idx fuel i (xs ++ [x]) t := rfl

theorem rotateSort_mono (h : rotateSort idx fuel i l t = some r) (k : Nat) :
    rotateSort idx (fuel + k) i l t = some r := by
  induction fuel generalizing i l t with
  | zero => cases h
  | succ fuel ih =>
    rw [Nat.add_right_comm]
    cases l with
    | nil => exact h
    | cons x xs =>
      rw [rotateSort_cons] at h ⊢
      split at h
      · rename_i hx
        rw [if_pos hx]
        exact ih h
      · rename_i hx
        rw [if_neg hx]
        exact ih h

/-- Elements that are not wanted go to the back. -/
theorem rotateSort_append (ha : ∀ x ∈ a, idx x ≠ i) :
    rotateSort idx (a.length + fuel) i (a ++ c) t = rotateSort idx fuel i (c ++ a) t := by
  induction a generalizing c with
  | nil => simp
  | cons x xs ih =>
    have hx : idx x ≠ i := ha x mem_cons_self
    have hstep : (x :: xs).length + fuel = (xs.length + fuel) + 1 := by
      simp only [length_cons]
      omega
    rw [hstep, cons_append, rotateSort_cons, if_neg hx, append_assoc]
    rw [ih (c := c ++ [x]) fun y hy => ha y (mem_cons_of_mem _ hy)]
    simp

/-- The indices from `i` on are sorted behind what has been sorted before, each after at
    most one round through the queue. -/
theorem rotateSort_sorts (h : (l.map idx).Perm (range' i l.length)) :
    ∃ r, rotateSort idx (l.length * l.length + 1) i l t = some (t ++ r) ∧ r.Perm l ∧
      r.map idx = range' i l.length := by
  induction hn : l.length generalizing i l t with
  | zero =>
    obtain rfl := length_eq_zero_iff.mp hn
    exact ⟨[], by simp, .nil, rfl⟩
  | succ n ih =>
    have hmem : i ∈ l.map idx := h.mem_iff.mpr (by simp [mem_range'_1, hn])
    obtain ⟨x, hx, hxi⟩ := mem_map.mp hmem
    obtain ⟨a, c, rfl⟩ := append_of_mem hx
    have hnodup : ((a ++ x :: c).map idx).Nodup := h.nodup_iff.mpr nodup_range'
    -- no element in front of `x` has its index
    have ha : ∀ y ∈ a, idx y ≠ i := by
      intro y hy heq
      rw [map_append, map_cons] at hnodup
      have hdisj := (nodup_append.mp hnodup).2.2 (idx y) (mem_map_of_mem hy) (idx x) mem_cons_self
      exact hdisj (heq.trans hxi.symm)
    have hlen : (c ++ a).length = n := by
      simp only [length_append, length_cons] at hn ⊢
      omega
    have hrest : ((c ++ a).map idx).Perm (range' (i + 1) (c ++ a).length) := by
      rw [hn, range'_succ, map_append, map_cons, hxi] at h
      have hswap := (perm_middle.symm.trans h).cons_inv
      rw [hlen, map_append]
      exact perm_append_comm.trans hswap
    obtain ⟨r, hr, hperm, hsorted⟩ := ih (t := t ++ [x]) hrest hlen
    refine ⟨x :: r, ?_, ?_, ?_⟩
    · -- `x` comes out after the elements in front of it
      have hle : a.length ≤ n := by
        simp only [length_append] at hlen
        omega
      have hfuel : (n + 1) * (n + 1) + 1 = a.length + ((n * n + 1) + (2 * n - a.length) + 1) := by
        have hsq : (n + 1) * (n + 1) = n * n + 2 * n + 1 := by
          rw [Nat.add_mul, Nat.mul_add]
          omega
        omega
      have hr' := rotateSort_mono hr (2 * n - a.length)
      rw [hfuel, rotateSort_append ha, cons_append, rotateSort_cons, if_pos hxi, hr', append_assoc]
      rfl
    · exact ((hperm.trans perm_append_comm).cons x).trans perm_middle.symm
    · rw [map_cons, hsorted, hxi, range'_succ]

/-- An element above a gap stays in the queue. -/
theorem rotateSort_stuck (hx : x ∈ l) (hg : g < idx x) (hi : i ≤ g) (hgap : ∀ y ∈ l, idx y ≠ g)
    (fuel : Nat) : rotateSort idx fuel i l t = none := by
  induction fuel generalizing i l t with
  | zero => rfl
  | succ fuel ih =>
    cases l with
    | nil => cases hx
    | cons y ys =>
      have hy : idx y ≠ g := hgap y mem_cons_self
      rw [rotateSort_cons]
      by_cases hyi : idx y = i
      · have hxys : x ∈ ys := by
          cases mem_cons.mp hx with
          | inl heq =>
            subst heq
            omega
          | inr h => exact h
        rw [if_pos hyi]
        exact ih hxys (by omega) fun z hz => hgap z (mem_cons_of_mem _ hz)
      · have hmem (z : α) : z ∈ ys ++ [y] ↔ z ∈ y :: ys := by simp [or_comm]
        rw [if_neg hyi]
        exact ih ((hmem x).mpr hx) hi fun z hz => hgap z ((hmem z).mp hz)

/-- Distinct indices without a gap are those below the length. -/
theorem Gapless.perm_range (h : l.Gapless idx) (hnodup : (l.map idx).Nodup) :
    (l.map idx).Perm (range l.length) := by
  have hlt : ∀ x ∈ l, idx x < l.length := by
    intro x hx
    have hsub : range (idx x + 1) ⊆ l.map idx := by
      intro g hg
      rw [mem_range] at hg
      by_cases heq : g = idx x
      · exact heq ▸ mem_map_of_mem hx
      · obtain ⟨y, hy, hyg⟩ := h x hx g (by omega)
        exact hyg ▸ mem_map_of_mem hy
    have hle := (nodup_range.subperm hsub).length_le
    rw [length_range, length_map] at hle
    omega
  have hsub : l.map idx ⊆ range l.length := by
    intro n hn
    obtain ⟨x, hx, rfl⟩ := mem_map.mp hn
    exact mem_range.mpr (hlt x hx)
  exact (hnodup.subperm hsub).perm_of_length_le (by simp)

theorem gapless_of_perm_range (h : (l.map idx).Perm (range l.length)) : l.Gapless idx := by
  intro x hx g hg
  have hlt : idx x < l.length := mem_range.mp (h.mem_iff.mp (mem_map_of_mem hx))
  exact mem_map.mp (h.mem_iff.mpr (mem_range.mpr (hg.trans hlt)))

end List
