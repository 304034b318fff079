import Mathlib.Algebra.CharP.Two
import Mathlib.Algebra.Field.ZMod
import Mathlib.Algebra.Polynomial.Div
import Mathlib.Algebra.Polynomial.Monic
import Mathlib.Data.ZMod.Basic
import Mathlib.Tactic.LinearCombination

/-!
# Shift registers with feedback

A register of `w` bits is a polynomial over GF(2) of a degree below `w`. One step of the register
multiplies it by `X` modulo a polynomial of degree `w`, whose lower coefficients are the feedback.
Nothing here mentions a feedback in particular.
-/

namespace BitVec

open Polynomial

variable {w : Nat}

/-! ## Bits as coefficients -/

/-- The polynomial whose coefficients are the bits. -/
noncomputable def toPoly (v : BitVec w) : (ZMod 2)[X] :=
  ∑ i ∈ Finset.range w, if v.getLsbD i then X ^ i else 0

/-- The coefficients are the bits. -/
theorem coeff_toPoly (v : BitVec w) (i : Nat) :
    v.toPoly.coeff i = if v.getLsbD i then 1 else 0 := by
  have hterm : ∀ j, (if v.getLsbD j then (X : (ZMod 2)[X]) ^ j else 0).coeff i =
      if i = j then (if v.getLsbD j then 1 else 0) else 0 := by
    intro j
    split
    · rw [coeff_X_pow]
    · simp
  rw [toPoly, finsetSum_coeff, Finset.sum_congr rfl fun j _ => hterm j, Finset.sum_ite_eq]
  split
  · rfl
  · next hi =>
    rw [getLsbD_of_ge v i (by simpa using hi)]
    rfl

/-- Coefficients decide. -/
theorem toPoly_eq_of_bits {v : BitVec w} {p : (ZMod 2)[X]}
    (h : ∀ i, p.coeff i = if v.getLsbD i then 1 else 0) : v.toPoly = p := by
  ext i
  rw [coeff_toPoly, h]

/-- Different words are different polynomials. -/
theorem toPoly_injective : Function.Injective (toPoly : BitVec w → (ZMod 2)[X]) := by
  intro u v h
  apply eq_of_getLsbD_eq
  intro i _
  have hcoeff := congrArg (fun p => p.coeff i) h
  simp only [coeff_toPoly] at hcoeff
  cases hu : u.getLsbD i <;> cases hv : v.getLsbD i <;> simp_all

/-- The zero word. -/
@[simp] theorem toPoly_zero : (0#w).toPoly = 0 :=
  toPoly_eq_of_bits fun i => by simp

/-- `xor` adds polynomials. -/
theorem toPoly_xor (u v : BitVec w) : (u ^^^ v).toPoly = u.toPoly + v.toPoly := by
  apply toPoly_eq_of_bits
  intro i
  rw [coeff_add, coeff_toPoly, coeff_toPoly, getLsbD_xor]
  cases u.getLsbD i <;> cases v.getLsbD i <;> decide

/-- The degree is below the width. -/
theorem degree_toPoly_lt (v : BitVec w) : v.toPoly.degree < w := by
  rw [degree_lt_iff_coeff_zero]
  intro i hi
  rw [coeff_toPoly, getLsbD_of_ge v i hi]
  rfl

/-- The upper and the lower part of a register. -/
theorem toPoly_append {n : Nat} (u : BitVec n) (v : BitVec w) :
    (u ++ v).toPoly = X ^ w * u.toPoly + v.toPoly := by
  apply toPoly_eq_of_bits
  intro i
  rw [coeff_add, coeff_X_pow_mul', coeff_toPoly, coeff_toPoly, getLsbD_append]
  by_cases hi : i < w
  · simp [hi, Nat.not_le.mpr hi]
  · simp [hi, Nat.le_of_not_lt hi]

/-! ## Steps of the register -/

/-- One step: where a bit leaves the register, the feedback is added. -/
def feedback (g v : BitVec w) : BitVec w :=
  if v.msb then (v <<< 1) ^^^ g else v <<< 1

/-- The polynomial of a feedback. -/
noncomputable def modulus (g : BitVec w) : (ZMod 2)[X] := X ^ w + g.toPoly

/-- The modulus is monic. -/
theorem monic_modulus (g : BitVec w) : g.modulus.Monic := monic_X_pow_add g.degree_toPoly_lt

/-- The degree of the modulus is the width. -/
theorem degree_modulus (g : BitVec w) : g.modulus.degree = w := by
  rw [modulus, degree_add_eq_left_of_degree_lt] <;> rw [degree_X_pow]
  exact g.degree_toPoly_lt

/-- A word is its own remainder. -/
theorem modByMonic_toPoly (g v : BitVec w) : v.toPoly %ₘ g.modulus = v.toPoly := by
  rw [modByMonic_eq_self_iff g.monic_modulus, degree_modulus]
  exact v.degree_toPoly_lt

/-- The bit that leaves the register is the coefficient of `X ^ w`. -/
theorem X_mul_toPoly (v : BitVec w) :
    X * v.toPoly = (v <<< 1).toPoly + if v.msb then X ^ w else 0 := by
  ext i
  have htop : (if v.msb then X ^ w else 0 : (ZMod 2)[X]).coeff i =
      if i = w ∧ v.getLsbD (w - 1) then 1 else 0 := by
    rw [msb_eq_getLsbD_last]
    split <;> simp [coeff_X_pow, *]
  rw [coeff_add, coeff_toPoly, getLsbD_shiftLeft, htop]
  cases i with
  | zero =>
    have hzero : ¬ (0 = w ∧ v.getLsbD (w - 1) = true) := by
      rintro ⟨rfl, h⟩
      simp at h
    simp [hzero]
  | succ i =>
    rw [coeff_X_mul, coeff_toPoly, Nat.add_sub_cancel]
    by_cases hlt : i + 1 < w
    · have hne : i + 1 ≠ w := Nat.ne_of_lt hlt
      simp [hlt, hne]
    · by_cases heq : i + 1 = w
      · have hi : w - 1 = i := by omega
        simp [hi, heq]
      · have hge : v.getLsbD i = false := getLsbD_of_ge v i (by omega)
        simp [hlt, heq, hge]

/-- A step of the register multiplies by `X`. -/
theorem toPoly_feedback (g v : BitVec w) :
    (feedback g v).toPoly = (X * v.toPoly) %ₘ g.modulus := by
  rw [← modByMonic_toPoly g (feedback g v)]
  apply modByMonic_eq_of_dvd_sub g.monic_modulus
  rw [X_mul_toPoly, feedback]
  split
  · -- what leaves the register and the feedback make up the modulus
    rw [toPoly_xor, add_sub_add_left_eq_sub, CharTwo.sub_eq_add, add_comm]
    exact dvd_refl _
  · rw [add_zero, sub_self]
    exact dvd_zero _

/-- Multiples of a remainder. -/
theorem mul_mod_modulus (g : BitVec w) (p q : (ZMod 2)[X]) :
    (p * (q %ₘ g.modulus)) %ₘ g.modulus = (p * q) %ₘ g.modulus := by
  apply modByMonic_eq_of_dvd_sub g.monic_modulus
  obtain ⟨r, hr⟩ := dvd_modByMonic_sub q g.modulus
  exact ⟨p * r, by linear_combination p * hr⟩

/-- `n` steps of the register multiply by `X ^ n`. -/
theorem toPoly_iterate_feedback (g v : BitVec w) (n : Nat) :
    ((feedback g)^[n] v).toPoly = (X ^ n * v.toPoly) %ₘ g.modulus := by
  induction n generalizing v with
  | zero => rw [Function.iterate_zero, id, pow_zero, one_mul, modByMonic_toPoly]
  | succ n ih =>
    rw [Function.iterate_succ_apply, ih, toPoly_feedback, mul_mod_modulus, pow_succ, mul_assoc]

end BitVec
