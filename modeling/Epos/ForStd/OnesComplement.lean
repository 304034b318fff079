import Mathlib.Algebra.BigOperators.Group.List.Basic
import Mathlib.Data.Nat.ModEq

/-!
# One's complement sums

Numbers of `w` bits whose sum takes the carry out of the highest bit back in at the
lowest one. Zero has two representations, and a sum is one of them exactly if the
modulus `2 ^ w - 1` divides the ordinary sum of the numbers.
-/

namespace OnesComplement

variable {w m n : Nat} {l : List Nat}

/-- Folding makes a number smaller. -/
theorem fold_decreasing (hw : ¬w = 0) (hn : ¬n < 2 ^ w) : n % 2 ^ w + n / 2 ^ w < n := by
  have htwo : 2 ≤ 2 ^ w := by
    calc 2 = 2 ^ 1 := rfl
      _ ≤ 2 ^ w := Nat.pow_le_pow_right (by omega) (by omega)
  have hpos : 0 < n / 2 ^ w := Nat.div_pos (by omega) (by omega)
  have hsplit := Nat.div_add_mod n (2 ^ w)
  have hle : 2 * (n / 2 ^ w) ≤ 2 ^ w * (n / 2 ^ w) := Nat.mul_le_mul_right _ htwo
  omega

/-- The carries out of `w` bits are taken back in until there are none. -/
def fold (w n : Nat) : Nat :=
  if w = 0 ∨ n < 2 ^ w then n else fold w (n % 2 ^ w + n / 2 ^ w)
termination_by n
decreasing_by
  rename_i h
  rw [not_or] at h
  exact fold_decreasing h.1 h.2

/-- The one's complement sum of numbers of `w` bits. -/
def sum (w : Nat) (l : List Nat) : Nat := l.foldl (fun a b => fold w (a + b)) 0

/-- Both representations of zero. -/
def IsZero (w n : Nat) : Prop := n = 0 ∨ n = 2 ^ w - 1

instance (w n : Nat) : Decidable (IsZero w n) := inferInstanceAs (Decidable (_ ∨ _))

/-! ## Folding -/

/-- A number that fits is its own fold. -/
theorem fold_of_lt (h : n < 2 ^ w) : fold w n = n := by
  rw [fold, if_pos (.inr h)]

/-- One fold of the carries. -/
theorem fold_of_le (hw : w ≠ 0) (h : 2 ^ w ≤ n) :
    fold w n = fold w (n % 2 ^ w + n / 2 ^ w) := by
  rw [fold, if_neg]
  omega

/-- The fold fits. -/
theorem fold_lt (hw : w ≠ 0) : fold w n < 2 ^ w := by
  induction n using Nat.strongRecOn with
  | ind n ih =>
    by_cases h : n < 2 ^ w
    · rwa [fold_of_lt h]
    · rw [fold_of_le hw (Nat.le_of_not_lt h)]
      exact ih _ (fold_decreasing hw h)

/-- The carry is worth one. -/
theorem two_pow_modEq_one : 2 ^ w ≡ 1 [MOD 2 ^ w - 1] := by
  have hpos : 1 ≤ 2 ^ w := Nat.one_le_two_pow
  exact (Nat.modEq_iff_dvd' hpos).mpr (Nat.dvd_refl _) |>.symm

/-- Folding keeps the value. -/
theorem split_modEq : n % 2 ^ w + n / 2 ^ w ≡ n [MOD 2 ^ w - 1] := by
  calc n % 2 ^ w + n / 2 ^ w
      = n % 2 ^ w + 1 * (n / 2 ^ w) := by omega
    _ ≡ n % 2 ^ w + 2 ^ w * (n / 2 ^ w) [MOD 2 ^ w - 1] :=
        (two_pow_modEq_one.symm.mul_right _).add_left _
    _ = n := Nat.mod_add_div n (2 ^ w)

/-- Taking a carry back in does not change a number modulo `2 ^ w - 1`. -/
theorem fold_modEq (hw : w ≠ 0) : fold w n ≡ n [MOD 2 ^ w - 1] := by
  induction n using Nat.strongRecOn with
  | ind n ih =>
    by_cases h : n < 2 ^ w
    · rw [fold_of_lt h]
    · rw [fold_of_le hw (Nat.le_of_not_lt h)]
      exact (ih _ (fold_decreasing hw h)).trans split_modEq

/-- Only zero folds to zero. -/
theorem fold_eq_zero (hw : w ≠ 0) : fold w n = 0 ↔ n = 0 := by
  induction n using Nat.strongRecOn with
  | ind n ih =>
    by_cases h : n < 2 ^ w
    · rw [fold_of_lt h]
    · rw [fold_of_le hw (Nat.le_of_not_lt h), ih _ (fold_decreasing hw h)]
      have hpos : 0 < 2 ^ w := Nat.two_pow_pos w
      have hdiv : 0 < n / 2 ^ w := Nat.div_pos (Nat.le_of_not_lt h) hpos
      omega

/-! ## Zero -/

/-- Which numbers are zero in ones' complement. -/
theorem isZero_iff_dvd (h : n < 2 ^ w) : IsZero w n ↔ 2 ^ w - 1 ∣ n := by
  constructor
  · intro hzero
    cases hzero with
    | inl h0 => exact h0 ▸ Nat.dvd_zero _
    | inr h1 => exact h1 ▸ Nat.dvd_refl _
  · intro ⟨k, hk⟩
    match k with
    | 0 => exact .inl (by omega)
    | 1 => exact .inr (by omega)
    | k + 2 =>
      have hexp : (2 ^ w - 1) * (k + 2) = (2 ^ w - 1) * k + 2 * (2 ^ w - 1) := by
        rw [Nat.mul_add, Nat.mul_comm _ 2]
      exact .inl (by omega)

/-- Folding after each addition. -/
theorem sum_foldl (hw : w ≠ 0) {a : Nat} (ha : a < 2 ^ w) :
    l.foldl (fun a b => fold w (a + b)) a < 2 ^ w ∧
      l.foldl (fun a b => fold w (a + b)) a ≡ a + l.sum [MOD 2 ^ w - 1] := by
  induction l generalizing a with
  | nil => exact ⟨ha, .refl _⟩
  | cons b l ih =>
    obtain ⟨hlt, hmod⟩ := ih (a := fold w (a + b)) (fold_lt hw)
    refine ⟨hlt, hmod.trans ?_⟩
    rw [List.sum_cons, ← Nat.add_assoc]
    exact (fold_modEq hw).add_right _

/-- A number of `w` bits is known from its residue and from whether it is all zeros. -/
theorem eq_of_modEq (hm : m < 2 ^ w) (hn : n < 2 ^ w) (hmod : m ≡ n [MOD 2 ^ w - 1])
    (hzero : m = 0 ↔ n = 0) : m = n := by
  have key : ∀ {a b : Nat}, b < 2 ^ w → a ≡ b [MOD 2 ^ w - 1] → (a = 0 ↔ b = 0) → a ≤ b →
      a = b := by
    intro a b hb hab hab0 hle
    obtain ⟨c, hc⟩ := (Nat.modEq_iff_dvd' hle).mp hab
    match c with
    | 0 => omega
    | c + 1 =>
      have hexp : (2 ^ w - 1) * (c + 1) = (2 ^ w - 1) * c + (2 ^ w - 1) := Nat.mul_succ _ _
      omega
  cases Nat.le_total m n with
  | inl hle => exact key hn hmod hzero hle
  | inr hle => exact (key hm hmod.symm hzero.symm hle).symm

/-- How many carries are taken back in altogether. -/
theorem fold_eq_sub (hw : w ≠ 0) (n : Nat) :
    fold w n = n - (2 ^ w - 1) * ((n - 1) / (2 ^ w - 1)) := by
  by_cases hn : n = 0
  · rw [(fold_eq_zero hw).mpr hn, hn]
    simp
  have htwo : 2 ^ 1 ≤ 2 ^ w := Nat.pow_le_pow_right (by omega) (by omega)
  have hsplit := Nat.div_add_mod (n - 1) (2 ^ w - 1)
  have hlt : (n - 1) % (2 ^ w - 1) < 2 ^ w - 1 := Nat.mod_lt _ (by omega)
  apply eq_of_modEq (fold_lt hw) (by omega)
  · refine (fold_modEq hw).trans ((Nat.modEq_iff_dvd' (Nat.sub_le _ _)).mpr ?_).symm
    rw [Nat.sub_sub_self (by omega)]
    exact Nat.dvd_mul_right _ _
  · rw [fold_eq_zero hw]
    omega

/-- Carries may be taken in at the end instead of after each number. -/
theorem sum_eq_fold (hw : w ≠ 0) (l : List Nat) : sum w l = fold w l.sum := by
  have key : ∀ a, a < 2 ^ w →
      l.foldl (fun a b => fold w (a + b)) a = fold w (a + l.sum) := by
    intro a ha
    obtain ⟨hlt, hmod⟩ := sum_foldl (l := l) hw ha
    apply eq_of_modEq hlt (fold_lt hw) (hmod.trans (fold_modEq hw).symm)
    rw [fold_eq_zero hw]
    clear hlt hmod ha
    induction l generalizing a with
    | nil => rfl
    | cons b l ih =>
      rw [List.foldl_cons, ih, List.sum_cons, Nat.add_eq_zero_iff, fold_eq_zero hw]
      omega
  rw [sum, key 0 (Nat.two_pow_pos w), Nat.zero_add]

/-- The one's complement sum is zero if the modulus divides the ordinary sum. -/
theorem isZero_sum (hw : w ≠ 0) : IsZero w (sum w l) ↔ 2 ^ w - 1 ∣ l.sum := by
  obtain ⟨hlt, hmod⟩ := sum_foldl (l := l) hw (a := 0) (Nat.two_pow_pos w)
  rw [Nat.zero_add] at hmod
  rw [sum, isZero_iff_dvd hlt]
  exact hmod.dvd_iff (Nat.dvd_refl _)

/-- A number and the complement of what it folds to add up to zero. -/
theorem dvd_add_complement (hw : w ≠ 0) : 2 ^ w - 1 ∣ n + (2 ^ w - 1 - fold w n) := by
  have hlt := fold_lt (n := n) hw
  have hmod : fold w n + (2 ^ w - 1 - fold w n) ≡ n + (2 ^ w - 1 - fold w n) [MOD 2 ^ w - 1] :=
    (fold_modEq hw).add_right _
  have hall : fold w n + (2 ^ w - 1 - fold w n) = 2 ^ w - 1 := by omega
  rw [hall] at hmod
  exact (hmod.dvd_iff (Nat.dvd_refl _)).mp (Nat.dvd_refl _)

end OnesComplement
