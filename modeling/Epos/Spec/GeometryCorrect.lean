import Epos.ForStd.Fuel
import Epos.Utility.Geometry
import Mathlib.Tactic.Linarith
import Mathlib.Tactic.Ring

/-!
# The integer square root and distances

The root is the floor of the square root below a quarter of the values of the type. From there
on `2 * one` overflows in the first step and the root is `-1`, and for a negative number, which
is what is left of a large sum, the first loop does not end. Distances are correct exactly where
the squared distance is below that bound.
-/

namespace Epos

open Fuel

/-! ## Arithmetic in a type -/

namespace CType

variable {T : CType} {m : Nat}

/-- The range of the type, by powers of four. -/
theorem two_pow_bits (hbits : T.bits = 2 * m + 2) : ((2 ^ T.bits : Nat) : Int) = 2 * (2 * 4 ^ m) := by
  rw [hbits, Nat.pow_add, Nat.pow_mul]
  push_cast
  ring

/-- A number inside of the range does not wrap. -/
theorem wrap_eq (hbits : T.bits = 2 * m + 2) {x : Int} (hlow : -(2 * 4 ^ m) ≤ x)
    (hhigh : x < 2 * 4 ^ m) : T.wrap x = x := by
  have hpow := two_pow_bits hbits
  rw [CType.wrap]
  apply Int.bmod_eq_of_le_mul_two <;> omega

/-- Wrapping leads into the range. -/
theorem wrap_range (hbits : T.bits = 2 * m + 2) (x : Int) :
    -(2 * 4 ^ m) ≤ T.wrap x ∧ T.wrap x < 2 * 4 ^ m := by
  have hpow := two_pow_bits hbits
  have hpos : 0 < 2 ^ T.bits := Nat.two_pow_pos _
  have hlow : -((2 ^ T.bits : Nat) / 2 : Int) ≤ T.wrap x := Int.le_bmod hpos
  have hhigh : T.wrap x < ((2 ^ T.bits : Nat) + 1 : Int) / 2 := Int.bmod_lt hpos
  omega

/-- The first value that is too large for a type. -/
theorem wrap_two_mul (hbits : T.bits = 2 * m + 2) : T.wrap (2 * 4 ^ m) = -(2 * 4 ^ m) := by
  have hpos : (0 : Int) ≤ 2 * 4 ^ m := by positivity
  exact Int.bmod_eq_neg hpos (two_pow_bits hbits)

end CType

/-! ## The square root -/

namespace Math

variable {T : CType} {m : Nat}

/-- The value of "one" in the step with `n` left after it. -/
def oneAt : Nat → Int
  | 0 => 0
  | n + 1 => 4 ^ n

/-- One power of four less. -/
theorem oneAt_succ_shiftRight (n : Nat) : oneAt (n + 1) >>> (2 : Nat) = oneAt n := by
  rw [Int.shiftRight_eq_div_pow]
  cases n with
  | zero => rfl
  | succ n =>
    show (4 : Int) ^ (n + 1) / _ = 4 ^ n
    rw [pow_succ]
    exact Int.mul_ediv_cancel _ (by decide)

/-- The powers are not negative. -/
theorem oneAt_nonneg (n : Nat) : 0 ≤ oneAt n := by
  cases n with
  | zero => exact Int.le_refl 0
  | succ n => exact pow_nonneg (by decide) n

/-- Halving what was doubled. -/
theorem two_mul_shiftRight (x : Int) : (2 * x) >>> (1 : Nat) = x := by
  rw [Int.shiftRight_eq_div_pow]
  exact Int.mul_ediv_cancel_left x (by decide)

/-- A loop that ends does so whatever the fuel. -/
theorem highestPower_independent (x one : Int) : Independent (highestPower x one) := by
  intro n
  induction n generalizing one with
  | zero => intro a ha; cases ha
  | succ n ih =>
    intro a ha
    rw [highestPower] at ha ⊢
    split at ha
    · next hgt => rw [if_pos hgt, ih _ a ha]
    · next hle => rw [if_neg hle, ha]

/-- The second loop does not depend on the fuel either. -/
theorem sqrtFrom_independent (x res one : Int) : Independent (sqrtFrom T x res one) := by
  intro n
  induction n generalizing x res one with
  | zero => intro a ha; cases ha
  | succ n ih =>
    intro a ha
    rw [sqrtFrom] at ha ⊢
    split at ha
    · next hone =>
      rw [if_pos hone]
      split at ha
      · next hge => rw [if_pos hge, ih _ _ _ a ha]
      · next hlt => rw [if_neg hlt, ih _ _ _ a ha]
    · next hone => rw [if_neg hone, ha]

/-- The first loop finds the power of four, or zero for zero. -/
theorem returns_highestPower {X : Nat} (n : Nat) (hX : X < 4 ^ n) :
    ∃ k ≤ n, Returns (highestPower X (oneAt n)) (oneAt k) ∧ X < 4 ^ k ∧ oneAt k ≤ X := by
  induction n with
  | zero =>
    have hzero : X = 0 := by simpa using hX
    subst hzero
    exact ⟨0, Nat.le_refl 0, ⟨1, rfl⟩, hX, Int.le_refl 0⟩
  | succ n ih =>
    by_cases hle : oneAt (n + 1) ≤ X
    · refine ⟨n + 1, Nat.le_refl _, ⟨1, ?_⟩, hX, hle⟩
      rw [highestPower, if_neg (not_lt.mpr hle)]
    · have hlt : X < 4 ^ n := by
        have hlt : (X : Int) < 4 ^ n := not_le.mp hle
        exact_mod_cast hlt
      obtain ⟨k, hk, hreturns, hXk, hone⟩ := ih hlt
      refine ⟨k, Nat.le_succ_of_le hk, hreturns.step fun fuel => ?_, hXk, hone⟩
      rw [highestPower, if_pos (not_le.mp hle), oneAt_succ_shiftRight]

/-- The first loop does not end for a negative number. -/
theorem highestPower_neg {x one : Int} (hx : x < 0) (hone : 0 ≤ one) (fuel : Nat) :
    highestPower x one fuel = none := by
  induction fuel generalizing one with
  | zero => rfl
  | succ fuel ih =>
    rw [highestPower, if_pos (lt_of_lt_of_le hx hone)]
    apply ih
    rw [Int.shiftRight_eq_div_pow]
    exact Int.ediv_nonneg hone (by decide)

section Step

/-! One step of the second loop: the root so far is `r`, and "one" is the square of `p`. -/

variable {p q r x : Int}

/-- What is tried stays inside of the range. -/
theorem try_lt (hp : 0 < p) (hpq : 2 * p ≤ q) (hrq : r < q) : 2 * (p * r) + p * p < 2 * (q * q) := by
  have hpr : p * r ≤ p * q := Int.mul_le_mul_of_nonneg_left (le_of_lt hrq) (le_of_lt hp)
  have hpp : p * (2 * p) ≤ p * q := Int.mul_le_mul_of_nonneg_left hpq (le_of_lt hp)
  have hqq : (2 * p) * q ≤ q * q := Int.mul_le_mul_of_nonneg_right hpq (by omega)
  have hpos : 0 < p * q := Int.mul_pos hp (by omega)
  rw [mul_assoc] at hqq
  rw [mul_left_comm] at hpp
  omega

/-- The root stays below the bound. -/
theorem root_lt (hr : 0 ≤ r) (hq : 0 ≤ q) (h : r * r < q * q) : r < q := by
  by_contra hge
  have hle := Int.mul_le_mul (not_lt.mp hge) (not_lt.mp hge) hq hr
  omega

/-- What is tried does not wrap. -/
theorem wrap_try (hbits : T.bits = 2 * m + 2) (hq : q * q = 4 ^ m) (hp : 0 < p) (hpq : 2 * p ≤ q)
    (hr : 0 ≤ r) (hrx : r * r ≤ x) (hx : x < q * q) :
    T.wrap (2 * (p * r) + p * p) = 2 * (p * r) + p * p := by
  have hrq : r < q := root_lt hr (by omega) (lt_of_le_of_lt hrx hx)
  have hlt := try_lt hp hpq hrq
  have hpr : 0 ≤ p * r := Int.mul_nonneg (le_of_lt hp) hr
  have hpp : 0 ≤ p * p := Int.mul_nonneg (le_of_lt hp) (le_of_lt hp)
  apply CType.wrap_eq hbits <;> omega

/-- A round that leaves the bit clear. -/
theorem sqrtFrom_leave (hbits : T.bits = 2 * m + 2) (hq : q * q = 4 ^ m) (hp : 0 < p)
    (hpq : 2 * p ≤ q) (hr : 0 ≤ r) (hrx : r * r ≤ x) (hx : x < q * q)
    (hlt : x < (r + p) * (r + p)) (fuel : Nat) :
    sqrtFrom T (x - r * r) (2 * (p * r)) (p * p) (fuel + 1) =
      sqrtFrom T (x - r * r) (p * r) ((p * p) >>> (2 : Nat)) fuel := by
  have hne : p * p ≠ 0 := mul_ne_zero (ne_of_gt hp) (ne_of_gt hp)
  have hsq : (r + p) * (r + p) = r * r + (2 * (p * r) + p * p) := by ring
  have hif : ¬ x - r * r ≥ 2 * (p * r) + p * p := by omega
  rw [sqrtFrom, if_pos hne, wrap_try hbits hq hp hpq hr hrx hx, if_neg hif, two_mul_shiftRight]

/-- A round that sets the bit. -/
theorem sqrtFrom_take (hbits : T.bits = 2 * m + 2) (hq : q * q = 4 ^ m) (hp : 0 < p)
    (hpq : 2 * p ≤ q) (hr : 0 ≤ r) (hx : x < q * q) (hge : (r + p) * (r + p) ≤ x) (fuel : Nat) :
    sqrtFrom T (x - r * r) (2 * (p * r)) (p * p) (fuel + 1) =
      sqrtFrom T (x - (r + p) * (r + p)) (p * (r + p)) ((p * p) >>> (2 : Nat)) fuel := by
  have hne : p * p ≠ 0 := mul_ne_zero (ne_of_gt hp) (ne_of_gt hp)
  have hsq : (r + p) * (r + p) = r * r + (2 * (p * r) + p * p) := by ring
  have hpr : 0 ≤ p * r := Int.mul_nonneg (le_of_lt hp) hr
  have hpp : 0 ≤ p * p := Int.mul_nonneg (le_of_lt hp) (le_of_lt hp)
  have hrx : r * r ≤ x := by omega
  have hif : x - r * r ≥ 2 * (p * r) + p * p := by omega
  have hrpq : r + p < q := root_lt (by omega) (by omega) (lt_of_le_of_lt hge hx)
  have hnonneg : 0 ≤ (r + p) * (r + p) := mul_self_nonneg (r + p)
  -- no operation wraps, because the root is below q
  have hleft : T.wrap (x - r * r - (2 * (p * r) + p * p)) = x - (r + p) * (r + p) := by
    rw [CType.wrap_eq hbits] <;> omega
  have htwice : T.wrap (2 * (p * p)) = 2 * (p * p) := by
    have hlt := try_lt hp hpq (show p < q by omega)
    apply CType.wrap_eq hbits <;> omega
  have hres : 2 * (p * r) + 2 * (p * p) = 2 * (p * (r + p)) := by ring
  have hroot : T.wrap (2 * (p * r) + 2 * (p * p)) = 2 * (p * (r + p)) := by
    have hlt := try_lt hp hpq hrpq
    have hnonneg : 0 ≤ p * (r + p) := Int.mul_nonneg (le_of_lt hp) (by omega)
    rw [hres]
    apply CType.wrap_eq hbits <;> omega
  rw [sqrtFrom, if_pos hne, wrap_try hbits hq hp hpq hr hrx hx, if_pos hif, hleft, htwice, hroot,
    two_mul_shiftRight]

end Step

/-- What is left of the radicand, and twice the root times "one", when a root with `n` more
    binary digits is `r`. -/
theorem returns_sqrtFrom (hbits : T.bits = 2 * m + 2) {X : Nat} (hX : X < 4 ^ m) (n : Nat)
    (hn : n ≤ m) (r : Nat) (hlow : r * r ≤ X) (hhigh : X < (r + 2 ^ n) * (r + 2 ^ n)) :
    Returns (sqrtFrom T (X - r * r) (2 ^ n * r) (oneAt n)) (Nat.sqrt X) := by
  -- the root is `r` up to the bits below `n`, of which each round decides one
  induction n generalizing r with
  | zero =>
    have hroot : Nat.sqrt X = r := (Nat.eq_sqrt.mpr ⟨hlow, hhigh⟩).symm
    refine ⟨1, ?_⟩
    have hdone : ¬ oneAt 0 ≠ 0 := not_not.mpr rfl
    rw [sqrtFrom, if_neg hdone, hroot, pow_zero, one_mul]
  | succ n ih =>
    have hfour (k : Nat) : (2 : Int) ^ k * 2 ^ k = 4 ^ k := by rw [← mul_pow]; norm_num
    have hp : (0 : Int) < 2 ^ n := by positivity
    have hpq : (2 : Int) * 2 ^ n ≤ 2 ^ m := by
      rw [← pow_succ']
      exact pow_le_pow_right₀ (by decide) hn
    have hx : (X : Int) < 2 ^ m * 2 ^ m := by
      rw [hfour]
      exact_mod_cast hX
    have hr : (0 : Int) ≤ r := Int.natCast_nonneg r
    have hone : oneAt (n + 1) = 2 ^ n * 2 ^ n := (hfour n).symm
    rw [pow_succ] at hhigh
    rw [pow_succ', mul_assoc, hone]
    -- the bit is set if the square still fits
    by_cases hge : (r + 2 ^ n) * (r + 2 ^ n) ≤ X
    · have hnext : X < (r + 2 ^ n + 2 ^ n) * (r + 2 ^ n + 2 ^ n) := by
        rwa [Nat.add_assoc, ← Nat.mul_two]
      have hge' : ((r : Int) + 2 ^ n) * (r + 2 ^ n) ≤ X := by exact_mod_cast hge
      refine (ih (Nat.le_of_succ_le hn) _ hge hnext).step fun fuel => ?_
      rw [sqrtFrom_take hbits (hfour m) hp hpq hr hx hge', ← hone, oneAt_succ_shiftRight]
      push_cast
      rfl
    · have hlt : X < (r + 2 ^ n) * (r + 2 ^ n) := not_le.mp hge
      refine (ih (Nat.le_of_succ_le hn) r hlow hlt).step fun fuel => ?_
      rw [sqrtFrom_leave hbits (hfour m) hp hpq hr (by exact_mod_cast hlow) hx
        (by exact_mod_cast hlt), ← hone, oneAt_succ_shiftRight]

/-- A first step that overflows: the root stays negative. -/
theorem returns_sqrtFrom_neg (hbits : T.bits = 2 * m + 2) (n : Nat) (x : Int) (hx : 0 ≤ x)
    (hlt : x + 4 ^ n ≤ 2 * 4 ^ m) : Returns (sqrtFrom T x (-4 ^ n) (oneAt n)) (-1) := by
  induction n generalizing x with
  | zero => exact ⟨1, rfl⟩
  | succ n ih =>
    have hpos : (0 : Int) < 4 ^ n := by positivity
    have hpow : (4 : Int) ^ (n + 1) = 4 * 4 ^ n := pow_succ' 4 n
    rw [hpow] at hlt
    have hone : oneAt (n + 1) = 4 ^ n := rfl
    have htry : T.wrap (-4 ^ (n + 1) + oneAt (n + 1)) = -(3 * 4 ^ n) := by
      rw [hpow, hone, CType.wrap_eq hbits] <;> omega
    have hleft : T.wrap (x - -(3 * 4 ^ n)) = x + 3 * 4 ^ n := by
      rw [CType.wrap_eq hbits] <;> omega
    have htwice : T.wrap (2 * oneAt (n + 1)) = 2 * 4 ^ n := by
      rw [hone, CType.wrap_eq hbits] <;> omega
    have hroot : T.wrap (-4 ^ (n + 1) + 2 * 4 ^ n) >>> (1 : Nat) = -4 ^ n := by
      have heq : -4 ^ (n + 1) + 2 * 4 ^ n = 2 * (-4 ^ n : Int) := by rw [hpow]; ring
      rw [heq, CType.wrap_eq hbits, two_mul_shiftRight] <;> omega
    refine (ih (x + 3 * 4 ^ n) (by omega) (by omega)).step fun fuel => ?_
    have hne : oneAt (n + 1) ≠ 0 := ne_of_gt hpos
    have hif : x ≥ -(3 * 4 ^ n) := by omega
    rw [sqrtFrom, if_pos hne, htry, if_pos hif, hleft, htwice, hroot, oneAt_succ_shiftRight]

/-- "one" at the start. -/
theorem wrap_one (hbits : T.bits = 2 * m + 2) : T.wrap ((1 : Int) <<< (T.bits - 2)) = oneAt (m + 1) := by
  have hpow : (1 : Int) <<< (T.bits - 2) = 4 ^ m := by
    rw [Int.shiftLeft_eq, hbits, Nat.add_sub_cancel, pow_mul, one_mul]
    norm_num
  have hpos : (0 : Int) < 4 ^ m := by positivity
  rw [hpow]
  apply CType.wrap_eq hbits <;> omega

/-- The root that is returned does not depend on the fuel. -/
theorem sqrt_independent (x : Int) : Independent (sqrt T x) :=
  (highestPower_independent x _).bind fun one => sqrtFrom_independent x 0 one

/-- The root is found by both loops. -/
theorem returns_sqrt_iff {x a : Int} : Returns (sqrt T x) a ↔
    ∃ one, Returns (highestPower x (T.wrap ((1 : Int) <<< (T.bits - 2)))) one ∧
      Returns (sqrtFrom T x 0 one) a :=
  returns_bind_iff (highestPower_independent x _) fun one => sqrtFrom_independent x 0 one

/-- The floor of the square root, below a quarter of the values of the type. -/
theorem returns_sqrt (hbits : T.bits = 2 * m + 2) {X : Nat} (hX : X < 4 ^ m) :
    Returns (sqrt T X) (Nat.sqrt X) := by
  obtain ⟨k, hk, hone, hXk, hle⟩ := returns_highestPower (m + 1)
    (lt_of_lt_of_le hX (Nat.pow_le_pow_right (by decide) (Nat.le_succ m)))
  have hkm : k ≤ m := by
    by_contra hgt
    have hkm : k = m + 1 := by omega
    subst hkm
    have hpow : ((4 ^ m : Nat) : Int) ≤ X := by
      push_cast
      exact hle
    exact absurd hX (not_lt.mpr (by exact_mod_cast hpow))
  rw [returns_sqrt_iff, wrap_one hbits]
  have hfour : (2 : Nat) ^ k * 2 ^ k = 4 ^ k := by rw [← Nat.mul_pow]
  have hfrom := returns_sqrtFrom hbits hX k hkm 0 (Nat.zero_le _) (by rwa [Nat.zero_add, hfour])
  simp only [Nat.cast_zero, mul_zero, sub_zero] at hfrom
  exact ⟨oneAt k, hone, hfrom⟩

/-- From there on, what fits in the type has the root `-1`. -/
theorem returns_sqrt_large (hbits : T.bits = 2 * m + 2) {x : Int} (hlow : 4 ^ m ≤ x)
    (hhigh : x < 2 * 4 ^ m) : Returns (sqrt T x) (-1) := by
  have hpos : (0 : Int) < 4 ^ m := by positivity
  have hone : oneAt (m + 1) = 4 ^ m := rfl
  rw [returns_sqrt_iff, wrap_one hbits]
  refine ⟨oneAt (m + 1), ⟨1, ?_⟩, ?_⟩
  · rw [highestPower, hone, if_neg (not_lt.mpr hlow)]
  · -- the first step subtracts "one" and overflows
    have htry : T.wrap (0 + oneAt (m + 1)) = 4 ^ m := by
      rw [hone, CType.wrap_eq hbits] <;> omega
    have hleft : T.wrap (x - 4 ^ m) = x - 4 ^ m := by
      rw [CType.wrap_eq hbits] <;> omega
    have hroot : T.wrap (0 + T.wrap (2 * oneAt (m + 1))) >>> (1 : Nat) = -4 ^ m := by
      have hneg : -(2 * 4 ^ m) = 2 * (-4 ^ m : Int) := by ring
      rw [hone, CType.wrap_two_mul hbits, zero_add, CType.wrap_eq hbits, hneg,
        two_mul_shiftRight] <;> omega
    have hne : oneAt (m + 1) ≠ 0 := ne_of_gt hpos
    refine (returns_sqrtFrom_neg hbits m (x - 4 ^ m) (by omega) (by omega)).step fun fuel => ?_
    rw [sqrtFrom, if_pos hne, htry, if_pos hlow, hleft, hroot, oneAt_succ_shiftRight]

/-- There is no root of a negative number. -/
theorem not_returns_sqrt_neg (hbits : T.bits = 2 * m + 2) {x a : Int} (hx : x < 0) :
    ¬ Returns (sqrt T x) a := by
  rw [returns_sqrt_iff]
  intro ⟨one, ⟨fuel, hone⟩, _⟩
  rw [wrap_one hbits, highestPower_neg hx (oneAt_nonneg _)] at hone
  cases hone

end Math

/-! ## Distances -/

namespace Geometry

variable {T : CType} {m : Nat} {c p : Point T}

/-- How far two coordinates are apart. -/
def gap {n : Nat} (x p : BitVec n) : Nat := (p.toInt - x.toInt).natAbs

def Point.squaredDistance (c p : Point T) : Nat :=
  gap c.x p.x * gap c.x p.x + gap c.y p.y * gap c.y p.y + gap c.z p.z * gap c.z p.z

/-- The types in which a distance is computed are large enough for a root of `m` bits, and a
    distance of any two points is not the largest number of its type. -/
structure Fits (T : CType) (m : Nat) : Prop where
  sum : T.LARGER.promoted.bits = 2 * m + 2
  difference : m + 1 ≤ T.promoted.bits
  larger : m + 1 ≤ T.LARGER.bits
  distance : T.bits + 1 < T.LARGER.bits

/-- A gap that fits does not wrap. -/
theorem wrap_gap {T : CType} (hT : m + 1 ≤ T.bits) {x : Nat} (hx : x < 2 ^ m) :
    T.wrap x = x := by
  have hpow : 2 * 2 ^ m ≤ 2 ^ T.bits := by
    rw [← Nat.pow_succ']
    exact Nat.pow_le_pow_right (by decide) hT
  rw [CType.wrap]
  generalize 2 ^ T.bits = bound at *
  apply Int.bmod_eq_of_le_mul_two <;> omega

/-- The difference of two coordinates is their gap. -/
theorem difference_eq (h : Fits T m) {x p : BitVec T.bits} (hgap : gap x p < 2 ^ m) :
    difference T x p = gap x p := by
  have heq : (if p.toInt > x.toInt then p.toInt - x.toInt else x.toInt - p.toInt) =
      (gap x p : Int) := by
    rw [gap]
    split <;> omega
  rw [difference, heq, wrap_gap h.difference hgap, wrap_gap h.larger hgap]

/-- The root of a bound. -/
theorem lt_of_mul_self_lt {a : Nat} (ha : a * a < 4 ^ m) : a < 2 ^ m := by
  have hfour : (4 : Nat) ^ m = 2 ^ m * 2 ^ m := by rw [← Nat.mul_pow]
  rw [hfour] at ha
  exact Nat.mul_self_lt_mul_self_iff.mp ha

/-- Nothing overflows while the squared distance is small. -/
theorem radicand_eq (h : Fits T m) (hS : c.squaredDistance p < 4 ^ m) :
    c.radicand p = c.squaredDistance p := by
  rw [Point.squaredDistance] at hS
  have hx := difference_eq h (lt_of_mul_self_lt (show gap c.x p.x * gap c.x p.x < 4 ^ m by omega))
  have hy := difference_eq h (lt_of_mul_self_lt (show gap c.y p.y * gap c.y p.y < 4 ^ m by omega))
  have hz := difference_eq h (lt_of_mul_self_lt (show gap c.z p.z * gap c.z p.z < 4 ^ m by omega))
  have hwrap {n : Nat} (hn : n < 4 ^ m) : T.LARGER.promoted.wrap n = n := by
    have hn' : (n : Int) < 4 ^ m := by exact_mod_cast hn
    apply CType.wrap_eq h.sum <;> omega
  rw [Point.radicand, Point.squaredDistance, hx, hy, hz]
  rw [← Nat.cast_mul, ← Nat.cast_mul, ← Nat.cast_mul, hwrap (by omega), hwrap (by omega),
    hwrap (by omega), ← Nat.cast_add, hwrap (by omega), ← Nat.cast_add, hwrap hS]

/-- A gap fits into the type. -/
theorem gap_lt {n : Nat} (x p : BitVec n) : gap x p < 2 ^ n := by
  have hx := x.le_two_mul_toInt
  have hx' := x.two_mul_toInt_lt
  have hp := p.le_two_mul_toInt
  have hp' := p.two_mul_toInt_lt
  have hcast : ((2 ^ n : Nat) : Int) = 2 ^ n := by push_cast; rfl
  rw [gap]
  omega

/-- A distance is not the value that `-1` has in its type. -/
theorem sqrt_squaredDistance_lt (h : Fits T m) (c p : Point T) :
    Nat.sqrt (c.squaredDistance p) < 2 ^ T.LARGER.bits - 1 := by
  have hpow : 4 * 2 ^ T.bits ≤ 2 ^ T.LARGER.bits := by
    have hle : 2 ^ (T.bits + 2) ≤ 2 ^ T.LARGER.bits :=
      Nat.pow_le_pow_right (by decide) (Nat.succ_le_of_lt h.distance)
    rwa [Nat.pow_add, Nat.mul_comm] at hle
  have hpos : 0 < 2 ^ T.bits := Nat.two_pow_pos _
  have hx := Nat.mul_self_lt_mul_self (gap_lt c.x p.x)
  have hy := Nat.mul_self_lt_mul_self (gap_lt c.y p.y)
  have hz := Nat.mul_self_lt_mul_self (gap_lt c.z p.z)
  have hS : c.squaredDistance p < (2 * 2 ^ T.bits) * (2 * 2 ^ T.bits) := by
    rw [Point.squaredDistance, mul_mul_mul_comm]
    omega
  have hroot := Nat.sqrt_lt.mpr hS
  omega

/-- A number that fits keeps its value. -/
theorem toNat_ofInt_of_lt {k l : Nat} (hk : k < 2 ^ l) : (BitVec.ofInt l k).toNat = k := by
  rw [BitVec.toNat_ofInt, ← Int.natCast_emod, Int.toNat_natCast, Nat.mod_eq_of_lt hk]

/-- -1 becomes the greatest value. -/
theorem toNat_ofInt_neg_one (l : Nat) : (BitVec.ofInt l (-1)).toNat = 2 ^ l - 1 := by
  have hpos : 0 < 2 ^ l := Nat.two_pow_pos l
  rw [BitVec.toNat_ofInt]
  generalize 2 ^ l = bound at *
  rw [← Int.add_emod_right, Int.emod_eq_of_lt (by omega) (by omega)]
  omega

/-- The root has half of the bits. -/
theorem sqrt_lt_two_pow {X : Nat} (hX : X < 4 ^ m) : Nat.sqrt X < 2 ^ m :=
  lt_of_mul_self_lt (lt_of_le_of_lt (Nat.sqrt_le X) hX)

/-- The distance is the root of the radicand. -/
theorem returns_distance_iff {d : Distance T} : Returns (c.distance p) d ↔
    ∃ root, Returns (Math.sqrt T.LARGER.promoted (c.radicand p)) root ∧
      BitVec.ofInt T.LARGER.bits root = d := returns_map_iff

/-- The answer does not depend on the fuel. -/
theorem contains_independent {radiusBits : Nat} (s : Sphere T radiusBits) (p : Point T) :
    Independent (s.contains p) :=
  ((Math.sqrt_independent _).map _).map _

/-- Whatever the distance, a number that is returned is small or the largest one. -/
theorem toNat_of_returns (h : Fits T m) {d : Distance T} (hd : Returns (c.distance p) d) :
    d.toNat < 2 ^ m ∨ d.toNat = 2 ^ T.LARGER.bits - 1 := by
  obtain ⟨root, hroot, rfl⟩ := returns_distance_iff.mp hd
  have hpow : 2 ^ m ≤ 2 ^ T.LARGER.bits :=
    Nat.pow_le_pow_right (by decide) (Nat.le_of_succ_le h.larger)
  obtain ⟨-, hhigh⟩ : _ ∧ c.radicand p < 2 * 4 ^ m := CType.wrap_range h.sum _
  by_cases hneg : c.radicand p < 0
  · exact absurd hroot (Math.not_returns_sqrt_neg h.sum hneg)
  · obtain ⟨X, hX⟩ := Int.eq_ofNat_of_zero_le (not_lt.mp hneg)
    rw [hX] at hroot hhigh
    by_cases hlt : X < 4 ^ m
    · have huniq := (Math.returns_sqrt h.sum hlt).unique (Math.sqrt_independent _) hroot
      have hsmall := sqrt_lt_two_pow hlt
      rw [← huniq, toNat_ofInt_of_lt (lt_of_lt_of_le hsmall hpow)]
      exact Or.inl hsmall
    · have hlow : (4 : Int) ^ m ≤ X := by exact_mod_cast not_lt.mp hlt
      have huniq := (Math.returns_sqrt_large h.sum hlow hhigh).unique (Math.sqrt_independent _) hroot
      rw [← huniq]
      exact Or.inr (toNat_ofInt_neg_one _)

/-- `operator-` returns the floor of the Euclidean distance. -/
def Point.DistanceCorrect (c p : Point T) : Prop :=
  ∃ d, Returns (c.distance p) d ∧ d.toNat = Nat.sqrt (c.squaredDistance p)

/-- It does exactly when the squared distance is below a quarter of the values of the type of the
    root. -/
theorem distance_correct_iff (h : Fits T m) (c p : Point T) :
    c.DistanceCorrect p ↔ c.squaredDistance p < 4 ^ m := by
  constructor
  · intro ⟨d, hd, hcorrect⟩
    by_contra hlarge
    have hfour : (4 : Nat) ^ m = 2 ^ m * 2 ^ m := by rw [← Nat.mul_pow]
    have hS : 2 ^ m ≤ Nat.sqrt (c.squaredDistance p) := by
      rw [Nat.le_sqrt, ← hfour]
      exact not_lt.mp hlarge
    have hlt := sqrt_squaredDistance_lt h c p
    have hd' := toNat_of_returns h hd
    omega
  · intro hS
    have hreturns := Math.returns_sqrt h.sum hS
    rw [← radicand_eq h hS] at hreturns
    refine ⟨_, returns_distance_iff.mpr ⟨_, hreturns, rfl⟩, toNat_ofInt_of_lt ?_⟩
    exact lt_of_lt_of_le (sqrt_lt_two_pow hS)
      (Nat.pow_le_pow_right (by decide) (Nat.le_of_succ_le h.larger))

/-! ## Spheres -/

variable {radiusBits : Nat}

/-- `contains` returns whether the distance, rounded down, is at most the radius. -/
def Sphere.ContainsCorrect (s : Sphere T radiusBits) (p : Point T) : Prop :=
  ∃ b, Returns (s.contains p) b ∧
    (b = true ↔ Nat.sqrt (s.center.squaredDistance p) ≤ s.radius.toNat)

/-- With the right distance the answer is right. -/
theorem Point.DistanceCorrect.contains {s : Sphere T radiusBits}
    (h : s.center.DistanceCorrect p) : s.ContainsCorrect p := by
  obtain ⟨d, hd, heq⟩ := h
  refine ⟨decide (d.toNat ≤ s.radius.toNat), returns_map_iff.mpr ⟨d, hd, rfl⟩, ?_⟩
  rw [decide_eq_true_iff, heq]

end Geometry

end Epos
