import Epos.ForStd.Decimal
import Epos.Kernel.Synchronizer

/-!
# Global ceilings of MPCP

`divider()` is a power of ten with the more zeros the more digits a priority has and the more of
them are not zero. What the division leaves of a priority is its first digit, the first digit and a
zero, or nothing.
-/

namespace Epos

namespace SemaphoreMPCP

open Nat

variable {n : Nat} {p q highestPriority : Int}

/-! ## The divisor -/

/-- The loop counts the digits, and those that are not zero. -/
theorem digits_eq {fuel num : Nat} (hfuel : num ≤ fuel) (count k : Int) :
    SemaphoreMPCP.digits fuel num count k =
      (count + (Nat.digits 10 num).length, k + nonzeroDigits 10 num) := by
  induction fuel generalizing num count k with
  | zero =>
    obtain rfl : num = 0 := by omega
    simp [SemaphoreMPCP.digits, nonzeroDigits]
  | succ fuel ih =>
    rw [SemaphoreMPCP.digits]
    by_cases hnum : num = 0
    · simp [hnum, nonzeroDigits]
    · rw [if_neg hnum, ih (by omega), length_digits_div (by decide) hnum,
        nonzeroDigits_div (by decide) hnum]
      refine Prod.ext ?_ ?_
      · show count + 1 + _ = count + _
        push_cast
        omega
      · show (if num % 10 ≠ 0 then k + 1 else k) + _ = k + _
        split <;> push_cast <;> omega

/-- How many times `divider()` multiplies by ten. -/
def exponent (n : Nat) : Nat := (Nat.digits 10 n).length + nonzeroDigits 10 n - 3

/-- The divider is a power of ten, wrapping as `int` does. -/
theorem divider_eq (p : Int) :
    divider p = (fun ans => toInt (ans * 10))^[exponent p.natAbs] 1 := by
  rw [divider, digits_eq (Nat.le_refl _)]
  have hexp : ((0 + ((Nat.digits 10 p.natAbs).length : Int)) - 3 +
      (0 + (nonzeroDigits 10 p.natAbs : Int))).toNat = exponent p.natAbs := by
    rw [exponent]
    omega
  simp only [hexp]

/-- No product that `divider()` computes overflows. -/
def NoOverflow (p : Int) : Prop :=
  ∀ i < exponent p.natAbs,
    toInt ((fun ans => toInt (ans * 10))^[i] 1 * 10) = (fun ans => toInt (ans * 10))^[i] 1 * 10

/-- An `int` that fits does not wrap. -/
theorem toInt_eq_self {x : Int} (hlo : -2 ^ 31 ≤ x) (hhi : x < 2 ^ 31) : toInt x = x := by
  rw [toInt, Int.bmod_def]
  omega

/-- Powers up to the ninth do not. -/
theorem iterate_eq {i : Nat} (hi : i ≤ 9) : (fun ans => toInt (ans * 10))^[i] 1 = 10 ^ i := by
  induction i with
  | zero => rfl
  | succ i ih =>
    rw [Function.iterate_succ_apply', ih (by omega), ← pow_succ]
    have hle : (10 : Int) ^ (i + 1) ≤ 10 ^ 9 := pow_le_pow_right₀ (by decide) hi
    have hpos : (0 : Int) < 10 ^ (i + 1) := pow_pos (by decide) _
    exact toInt_eq_self (by omega) (by omega)

/-- The divider overflows exactly beyond the ninth power. -/
theorem noOverflow_iff (p : Int) : NoOverflow p ↔ exponent p.natAbs ≤ 9 := by
  constructor
  · intro h
    by_contra hlt
    have hstep := h 9 (by omega)
    rw [iterate_eq (Nat.le_refl 9)] at hstep
    exact absurd hstep (by decide)
  · intro h i hi
    rw [← Function.iterate_succ_apply' (fun ans => toInt (ans * 10)), iterate_eq (by omega),
      iterate_eq (by omega), pow_succ]

/-- Without an overflow it is the power. -/
theorem divider_of_noOverflow (h : NoOverflow p) : divider p = 10 ^ exponent p.natAbs := by
  rw [divider_eq, iterate_eq ((noOverflow_iff p).mp h)]

/-! ## The quotient -/

/-- What the division leaves of a priority without its sign. -/
def share (n : Nat) : Nat :=
  if nonzeroDigits 10 n = 1 then if n < 10 then n else 10 * leadingDigit 10 n
  else if nonzeroDigits 10 n = 2 then leadingDigit 10 n
  else 0

/-- What it divides to. -/
theorem div_exponent (n : Nat) : n / 10 ^ exponent n = share n := by
  have hlength := nonzeroDigits_le_length 10 n
  by_cases hone : nonzeroDigits 10 n = 1
  · rw [share, if_pos hone]
    by_cases hdigit : n < 10
    · have hn : n ≠ 0 := nonzeroDigits_pos_iff.mp (hone ▸ Nat.one_pos)
      rw [if_pos hdigit, exponent, hone, Nat.digits_of_lt 10 n hn hdigit]
      exact Nat.div_one n
    · have htwo : 2 ≤ (Nat.digits 10 n).length := by
        rw [length_digits_div (by decide) (by omega)]
        have hrest := length_digits_pos (b := 10) (n := n / 10) (by omega)
        omega
      rw [if_neg hdigit, exponent, hone, ← div_pow_of_nonzeroDigits_one (by decide) hone htwo]
      exact congrArg (n / 10 ^ ·) (by omega)
  · rw [share, if_neg hone]
    by_cases htwo : nonzeroDigits 10 n = 2
    · rw [if_pos htwo, leadingDigit, exponent, htwo]
      exact congrArg (n / 10 ^ ·) (by omega)
    · rw [if_neg htwo]
      by_cases hn : n = 0
      · rw [hn, Nat.zero_div]
      · have hpos := nonzeroDigits_pos_iff (b := 10).mpr hn
        exact div_pow_eq_zero (by decide) (by rw [exponent]; omega)

/-- A share is 90 at most. -/
theorem share_le (n : Nat) : share n ≤ 90 := by
  have hlead := leadingDigit_lt (b := 10) (by decide) n
  rw [share]
  split
  · split <;> omega
  · split <;> omega

/-- What the division leaves of a priority. -/
def signedShare (p : Int) : Int := if 0 ≤ p then share p.natAbs else -share p.natAbs

/-- The quotient is the share, with the sign. -/
theorem tdiv_divider (h : NoOverflow p) : p.tdiv (divider p) = signedShare p := by
  have hdiv : ((share p.natAbs : Nat) : Int) = (p.natAbs : Int) / 10 ^ exponent p.natAbs := by
    rw [← div_exponent]
    simp
  rw [divider_of_noOverflow h, signedShare, hdiv]
  by_cases hp : 0 ≤ p
  · rw [if_pos hp, Int.natAbs_of_nonneg hp]
    exact Int.tdiv_eq_ediv_of_nonneg hp
  · have hneg : p = -(p.natAbs : Int) := by omega
    rw [if_neg hp]
    conv_lhs => rw [hneg, Int.neg_tdiv]
    rw [Int.tdiv_eq_ediv_of_nonneg (by omega), Int.natAbs_neg, Int.natAbs_natCast]

/-- The share with its sign stays between -90 and 90. -/
theorem signedShare_bounds (p : Int) : -90 ≤ signedShare p ∧ signedShare p ≤ 90 := by
  have hle := share_le p.natAbs
  rw [signedShare]
  split <;> omega

/-- The ceiling is less than the smallest `int`. -/
def Under (highestPriority p : Int) : Prop := highestPriority - 1 - signedShare p < -2 ^ 31

/-- The global ceiling, as numbers. -/
theorem toGlobalCeiling_eq (h : NoOverflow p) (hlo : -2 ^ 31 ≤ highestPriority)
    (hp : highestPriority ≤ p) (hhi : p < 2 ^ 31) :
    (Under highestPriority p →
      toGlobalCeiling highestPriority p = highestPriority - 1 - signedShare p + 2 ^ 32) ∧
    (¬Under highestPriority p →
      toGlobalCeiling highestPriority p = highestPriority - 1 - signedShare p) := by
  have hshare := signedShare_bounds p
  have hnonneg : 0 ≤ p → 0 ≤ signedShare p := by
    intro hp
    rw [signedShare, if_pos hp]
    exact Int.natCast_nonneg _
  rw [toGlobalCeiling, tdiv_divider h]
  constructor
  · intro hunder
    rw [Under] at hunder
    rw [toInt, Int.bmod_def]
    omega
  · intro hunder
    rw [Under] at hunder
    exact toInt_eq_self (by omega) (by omega)

/-- Two priorities get their ceilings in the right order if the first one has the larger share,
    as long as neither or both of the ceilings are below all `int`s. -/
theorem ceilings_ordered_iff (hlo : -2 ^ 31 ≤ highestPriority) (hp : highestPriority ≤ p)
    (hlt : p < q) (hhi : q < 2 ^ 31) (hpfits : NoOverflow p) (hqfits : NoOverflow q) :
    toGlobalCeiling highestPriority p ≤ toGlobalCeiling highestPriority q ↔
      (Under highestPriority p → Under highestPriority q) ∧
        ((Under highestPriority p ↔ Under highestPriority q) → signedShare q ≤ signedShare p) := by
  obtain ⟨hpunder, hpin⟩ := toGlobalCeiling_eq hpfits hlo hp (by omega)
  obtain ⟨hqunder, hqin⟩ := toGlobalCeiling_eq hqfits hlo (by omega) hhi
  have hpshare := signedShare_bounds p
  have hqshare := signedShare_bounds q
  -- where both ceilings wrap around or neither does, the shares decide
  by_cases hpu : Under highestPriority p
  · rw [hpunder hpu]
    by_cases hqu : Under highestPriority q
    · rw [hqunder hqu]
      simp only [hpu, hqu, iff_self, true_implies, true_and]
      omega
    · rw [hqin hqu]
      simp only [hpu, hqu, true_implies, false_and, iff_false]
      rw [Under] at hpu hqu
      omega
  · rw [hpin hpu]
    by_cases hqu : Under highestPriority q
    · rw [hqunder hqu]
      simp only [hpu, hqu, false_implies, and_self, iff_true]
      rw [Under] at hpu hqu
      omega
    · rw [hqin hqu]
      simp only [hpu, hqu, iff_self, false_implies, true_implies, true_and]
      omega

/-- Two of the priorities that the threads of an application have. -/
theorem ceilings_ordered_iff_example :
    toGlobalCeiling 50000 50000 ≤ toGlobalCeiling 50000 150000 ↔
      (Under 50000 50000 → Under 50000 150000) ∧
        ((Under 50000 50000 ↔ Under 50000 150000) → signedShare 150000 ≤ signedShare 50000) :=
  ceilings_ordered_iff (by decide) (by decide) (by decide) (by decide)
    ((noOverflow_iff _).mpr (by simp [exponent, nonzeroDigits]))
    ((noOverflow_iff _).mpr (by simp [exponent, nonzeroDigits]))

/-- A digit more that is not zero makes the ceiling of the more urgent priority the larger one. -/
theorem not_ceilings_ordered : NoOverflow 150000 ∧ NoOverflow 200000 ∧
    ¬toGlobalCeiling 50000 150000 ≤ toGlobalCeiling 50000 200000 := by
  refine ⟨(noOverflow_iff _).mpr ?_, (noOverflow_iff _).mpr ?_, by decide +kernel⟩
  · simp [exponent, nonzeroDigits]
  · simp [exponent, nonzeroDigits]

/-! ## Ceilings above all priorities -/

/-- The divider is positive. -/
theorem divider_pos (h : NoOverflow p) : 0 < divider p := by
  rw [divider_of_noOverflow h]
  exact pow_pos (by decide) _

/-- When the share is not negative. -/
theorem signedShare_nonneg_iff (p : Int) :
    0 ≤ signedShare p ↔ 0 ≤ p ∨ 3 ≤ nonzeroDigits 10 p.natAbs := by
  rw [signedShare]
  by_cases hp : 0 ≤ p
  · rw [if_pos hp]
    exact iff_of_true (Int.natCast_nonneg _) (Or.inl hp)
  · have hn : p.natAbs ≠ 0 := by omega
    have hcount := nonzeroDigits_pos_iff (b := 10).mpr hn
    have hlead := leadingDigit_pos (b := 10) (by decide) hn
    rw [if_neg hp, share]
    split
    · split <;> omega
    · split <;> omega

/-- The ceiling of a priority is global if its digits and those that are not zero are at most
    twelve, and, among priorities and ceilings below zero, where it does not change its sign. -/
theorem ceiling_global_iff (hlo : -2 ^ 31 ≤ highestPriority) (hp : highestPriority ≤ p)
    (hhi : p < 2 ^ 31) :
    (NoOverflow p ∧ 0 < divider p ∧ toGlobalCeiling highestPriority p < highestPriority) ↔
      (Nat.digits 10 p.natAbs).length + nonzeroDigits 10 p.natAbs ≤ 12 ∧
        (0 ≤ p ∨ 3 ≤ nonzeroDigits 10 p.natAbs) ∧ ¬Under highestPriority p := by
  have hshare := signedShare_bounds p
  have hexp : NoOverflow p ↔
      (Nat.digits 10 p.natAbs).length + nonzeroDigits 10 p.natAbs ≤ 12 := by
    rw [noOverflow_iff, exponent]
    omega
  rw [← hexp, ← signedShare_nonneg_iff]
  refine and_congr_right fun hfits => ?_
  obtain ⟨hunder, hin⟩ := toGlobalCeiling_eq hfits hlo hp hhi
  rw [and_iff_right (divider_pos hfits)]
  by_cases hu : Under highestPriority p
  · rw [hunder hu]
    simp only [hu, not_true_eq_false, and_false, iff_false]
    omega
  · rw [hin hu]
    simp only [hu, not_false_eq_true, and_true]
    omega

/-- The priority 200000. -/
theorem ceiling_global_iff_example :
    (NoOverflow 200000 ∧ 0 < divider 200000 ∧ toGlobalCeiling 50000 200000 < 50000) ↔
      (Nat.digits 10 (200000 : Int).natAbs).length +
          nonzeroDigits 10 (200000 : Int).natAbs ≤ 12 ∧
        (0 ≤ (200000 : Int) ∨ 3 ≤ nonzeroDigits 10 (200000 : Int).natAbs) ∧ ¬Under 50000 200000 :=
  ceiling_global_iff (by decide) (by decide) (by decide)

/-- Seven digits are too many if six of them are not zero. What is computed where it overflows may
    be a ceiling that is no more urgent than the priorities of tasks. -/
theorem not_ceiling_global :
    ¬(NoOverflow 1111110 ∧ 0 < divider 1111110 ∧ toGlobalCeiling 50000 1111110 < 50000) ∧
      ¬toGlobalCeiling 50000 1111100000 < 50000 := by
  refine ⟨fun h => ?_, by decide +kernel⟩
  have hexp := (noOverflow_iff _).mp h.1
  simp [exponent, nonzeroDigits] at hexp

end SemaphoreMPCP

end Epos
