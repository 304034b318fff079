import Epos.Spec.GeometryCorrect
import Epos.Utility.SquareRoot

/-!
# The integer square root of every type

All sums of the loop are below the square of a power of two that is larger than the root. For an
unsigned type the values go up to there; for a signed type they do where the two top bits of the
argument are clear, and otherwise `2 * one` or the conversion of `res` overflows in the first step.
-/

namespace Epos

open Fuel

/-! ## Values that a type has -/

namespace IntegralType

variable {T : IntegralType} {v : Int}

/-- The first value that is too large. -/
def top (T : IntegralType) : Int := if T.signed then 2 ^ (T.bits - 1) else 2 ^ T.bits

/-- The range of a type and its half. -/
theorem two_pow_bits (T : IntegralType) :
    ((2 ^ T.bits : Nat) : Int) = 2 * 2 ^ (T.bits - 1) := by
  cases T <;> rfl

/-- A value that fits does not wrap. -/
theorem wrap_eq (hlow : 0 ≤ v) (hhigh : v < T.top) : T.wrap v = v := by
  have hpow := two_pow_bits T
  unfold wrap
  unfold top at hhigh
  split at hhigh
  · next hsigned =>
    rw [if_pos hsigned]
    apply Int.bmod_eq_of_le_mul_two <;> omega
  · next hsigned =>
    rw [if_neg hsigned]
    exact Int.emod_eq_of_lt hlow hhigh

/-- What has wrapped fits. -/
theorem wrap_lt (T : IntegralType) (v : Int) : T.wrap v < T.top := by
  have hpow := two_pow_bits T
  unfold wrap top
  split
  · have hlt := Int.bmod_lt (x := v) (Nat.two_pow_pos T.bits)
    omega
  · exact Int.emod_lt_of_pos v (by positivity)

/-- Promotion does not narrow. -/
theorem top_le_promoted (T : IntegralType) : T.top ≤ T.promoted.top := by
  cases T <;> decide

/-- A value that fits does not wrap in the promoted type. -/
theorem wrap_promoted_eq (hlow : 0 ≤ v) (hhigh : v < T.top) : T.promoted.wrap v = v :=
  wrap_eq hlow (lt_of_lt_of_le hhigh T.top_le_promoted)

/-- Half of the bits but one, and the square root of "one" at the start is `2 ^ half`. -/
def half (T : IntegralType) : Nat := T.bits / 2 - 1

/-- The bits of a type, by halves. -/
theorem bits_eq (T : IntegralType) : T.bits = 2 * T.half + 2 := by
  cases T <;> rfl

/-- The first power of four fits. -/
theorem four_pow_half_lt_top (T : IntegralType) : (4 : Int) ^ T.half < T.top := by
  cases T <;> decide

/-- A bound on the roots of the arguments that are taken. -/
def side (T : IntegralType) : Nat := if T.signed then T.half else T.half + 1

/-- The square of the bound fits. -/
theorem four_pow_side_le_top (T : IntegralType) : (4 : Int) ^ T.side ≤ T.top := by
  cases T <;> decide

end IntegralType

namespace Math.Checked

open IntegralType

variable {T : IntegralType} {fits : Bool}

/-- One round of the loop. -/
theorem sqrtFrom_succ (x res one : Int) (fuel : Nat) : sqrtFrom T x res one fits (fuel + 1) =
    if one ≠ 0 then
      if x ≥ T.promoted.wrap (res + one) then
        sqrtFrom T (T.wrap (T.promoted.wrap (x - T.promoted.wrap (res + one))))
          (T.wrap (T.promoted.wrap (res + T.promoted.wrap (2 * one))) >>> (1 : Nat))
          (one >>> (2 : Nat))
          (fits && T.promoted.wrap (res + one) = res + one &&
            T.wrap (T.promoted.wrap (x - T.promoted.wrap (res + one))) =
              x - T.promoted.wrap (res + one) &&
            T.promoted.wrap (2 * one) = 2 * one &&
            T.wrap (T.promoted.wrap (res + T.promoted.wrap (2 * one))) = res + 2 * one) fuel
      else
        sqrtFrom T x (res >>> (1 : Nat)) (one >>> (2 : Nat))
          (fits && T.promoted.wrap (res + one) = res + one) fuel
    else some (res, fits) := rfl

/-- A loop that ends does so whatever the fuel. -/
theorem sqrtFrom_independent (x res one : Int) (fits : Bool) :
    Independent (sqrtFrom T x res one fits) := by
  intro n
  induction n generalizing x res one fits with
  | zero => intro a ha; cases ha
  | succ n ih =>
    intro a ha
    rw [sqrtFrom_succ] at ha ⊢
    split at ha
    · next hone =>
      rw [if_pos hone]
      split at ha
      · next hge => rw [if_pos hge, ih _ _ _ _ a ha]
      · next hlt => rw [if_neg hlt, ih _ _ _ _ a ha]
    · next hone => rw [if_neg hone, ha]

/-- What has wrapped around is not forgotten. -/
theorem sqrtFrom_inexact {x res one : Int} {fuel : Nat} {r : Int × Bool}
    (h : sqrtFrom T x res one false fuel = some r) : r.2 = false := by
  induction fuel generalizing x res one with
  | zero => cases h
  | succ fuel ih =>
    rw [sqrtFrom_succ] at h
    split at h
    · split at h
      · exact ih h
      · exact ih h
    · cases h
      rfl

/-! ## Steps without overflow -/

section Step

variable {p q r x : Int}

/-- The sums of a step are below the square of `q`. -/
theorem sums_lt (hp : 0 < p) (hr : 0 ≤ r) (hq : r + 2 * p ≤ q) :
    2 * (p * r) + p * p < q * q ∧ 2 * (p * (r + p)) < q * q ∧ 2 * (p * p) < q * q := by
  have hpos : 0 < q := by omega
  have hpr : 0 ≤ p * r := Int.mul_nonneg (le_of_lt hp) hr
  have hpp : 0 < p * p := Int.mul_pos hp hp
  have hroot : (r + 2 * p) * (r + 2 * p) ≤ q * q :=
    Int.mul_le_mul hq hq (by omega) (le_of_lt hpos)
  have hsq : (r + 2 * p) * (r + 2 * p) = r * r + 4 * (p * r) + 4 * (p * p) := by ring
  have hrr : 0 ≤ r * r := mul_self_nonneg r
  have hdist : p * (r + p) = p * r + p * p := by ring
  rw [hdist]
  omega

/-- A round that leaves the bit clear. -/
theorem sqrtFrom_leave (htop : q * q ≤ T.top) (hp : 0 < p) (hr : 0 ≤ r) (hq : r + 2 * p ≤ q)
    (hlt : x < (r + p) * (r + p)) (fuel : Nat) :
    sqrtFrom T (x - r * r) (2 * (p * r)) (p * p) fits (fuel + 1) =
      sqrtFrom T (x - r * r) (p * r) ((p * p) >>> (2 : Nat)) fits fuel := by
  obtain ⟨hsum, -, -⟩ := sums_lt hp hr hq
  have hpr : 0 ≤ p * r := Int.mul_nonneg (le_of_lt hp) hr
  have hpp : 0 < p * p := Int.mul_pos hp hp
  have hne : p * p ≠ 0 := ne_of_gt hpp
  have hsq : (r + p) * (r + p) = r * r + (2 * (p * r) + p * p) := by ring
  have hwrap : T.promoted.wrap (2 * (p * r) + p * p) = 2 * (p * r) + p * p :=
    wrap_promoted_eq (by omega) (by omega)
  -- What is left is compared with what one digit more would take.
  have hif : ¬ x - r * r ≥ 2 * (p * r) + p * p := by omega
  rw [sqrtFrom_succ, if_pos hne, hwrap, if_neg hif, Math.two_mul_shiftRight, decide_eq_true rfl,
    Bool.and_true]

/-- A round that sets the bit. -/
theorem sqrtFrom_take (htop : q * q ≤ T.top) (hp : 0 < p) (hr : 0 ≤ r) (hq : r + 2 * p ≤ q)
    (hx : x < q * q) (hge : (r + p) * (r + p) ≤ x) (fuel : Nat) :
    sqrtFrom T (x - r * r) (2 * (p * r)) (p * p) fits (fuel + 1) =
      sqrtFrom T (x - (r + p) * (r + p)) (p * (r + p)) ((p * p) >>> (2 : Nat)) fits fuel := by
  obtain ⟨hsum, hres, htwice⟩ := sums_lt hp hr hq
  have hpr : 0 ≤ p * r := Int.mul_nonneg (le_of_lt hp) hr
  have hpp : 0 < p * p := Int.mul_pos hp hp
  have hne : p * p ≠ 0 := ne_of_gt hpp
  have hrr : 0 ≤ r * r := mul_self_nonneg r
  have hsq : (r + p) * (r + p) = r * r + (2 * (p * r) + p * p) := by ring
  have hdouble : 2 * (p * r) + 2 * (p * p) = 2 * (p * (r + p)) := by ring
  have hleft : x - r * r - (2 * (p * r) + p * p) = x - (r + p) * (r + p) := by omega
  have hwrap : T.promoted.wrap (2 * (p * r) + p * p) = 2 * (p * r) + p * p :=
    wrap_promoted_eq (by omega) (by omega)
  have hrest : T.wrap (T.promoted.wrap (x - (r + p) * (r + p))) = x - (r + p) * (r + p) := by
    rw [wrap_promoted_eq (by omega) (by omega), wrap_eq (by omega) (by omega)]
  have htwo : T.promoted.wrap (2 * (p * p)) = 2 * (p * p) :=
    wrap_promoted_eq (by omega) (by omega)
  have hnext : T.wrap (T.promoted.wrap (2 * (p * (r + p)))) = 2 * (p * (r + p)) := by
    rw [wrap_promoted_eq (by omega) (by omega), wrap_eq (by omega) (by omega)]
  have hif : x - r * r ≥ 2 * (p * r) + p * p := by omega
  rw [sqrtFrom_succ, if_pos hne, hwrap, if_pos hif, hleft, hrest, htwo, hdouble, hnext,
    Math.two_mul_shiftRight]
  simp only [decide_true, Bool.and_true]

end Step

/-- The root, when one with `n` more binary digits is `r`. -/
theorem returns_sqrtFrom (fits : Bool) {m : Nat} (htop : (4 : Int) ^ m ≤ T.top) {X : Nat}
    (hX : X < 4 ^ m) (n r : Nat) (hr : r + 2 ^ n ≤ 2 ^ m) (hlow : r * r ≤ X)
    (hhigh : X < (r + 2 ^ n) * (r + 2 ^ n)) :
    Returns (sqrtFrom T (X - r * r) (2 ^ n * r) (Math.oneAt n) fits) (Nat.sqrt X, fits) := by
  induction n generalizing r with
  | zero =>
    have hroot : Nat.sqrt X = r := (Nat.eq_sqrt.mpr ⟨hlow, hhigh⟩).symm
    have hdone : ¬ Math.oneAt 0 ≠ 0 := not_not.mpr rfl
    refine ⟨1, ?_⟩
    rw [sqrtFrom_succ, if_neg hdone, hroot, pow_zero, one_mul]
  | succ n ih =>
    have hfour (k : Nat) : (2 : Int) ^ k * 2 ^ k = 4 ^ k := by rw [← mul_pow]; norm_num
    have hp : (0 : Int) < 2 ^ n := by positivity
    have hr0 : (0 : Int) ≤ r := Int.natCast_nonneg r
    have hx : (X : Int) < 2 ^ m * 2 ^ m := by
      rw [hfour]
      exact_mod_cast hX
    have hone : Math.oneAt (n + 1) = 2 ^ n * 2 ^ n := (hfour n).symm
    rw [pow_succ] at hhigh hr
    have hq : (r : Int) + 2 * 2 ^ n ≤ 2 ^ m := by
      rw [mul_comm (2 : Int)]
      exact_mod_cast hr
    rw [← hfour] at htop
    rw [pow_succ', mul_assoc, hone]
    -- The next digit is one if the square stays below `X`.
    by_cases hge : (r + 2 ^ n) * (r + 2 ^ n) ≤ X
    · have hnext : X < (r + 2 ^ n + 2 ^ n) * (r + 2 ^ n + 2 ^ n) := by
        rwa [Nat.add_assoc, ← Nat.mul_two]
      have hge' : ((r : Int) + 2 ^ n) * (r + 2 ^ n) ≤ X := by exact_mod_cast hge
      refine (ih (r + 2 ^ n) (by omega) hge hnext).step fun fuel => ?_
      rw [sqrtFrom_take htop hp hr0 hq hx hge', ← hone, Math.oneAt_succ_shiftRight]
      push_cast
      rfl
    · have hlt : X < (r + 2 ^ n) * (r + 2 ^ n) := not_le.mp hge
      refine (ih r (by omega) hlow hlt).step fun fuel => ?_
      rw [sqrtFrom_leave htop hp hr0 hq (by exact_mod_cast hlt), ← hone,
        Math.oneAt_succ_shiftRight]

/-! ## The root -/

/-- "one" at the start. -/
theorem one_eq (T : IntegralType) : (1 : Int) <<< (T.bits - 2) = Math.oneAt (T.half + 1) := by
  rw [Int.shiftLeft_eq, T.bits_eq, Nat.add_sub_cancel, pow_mul, one_mul]
  rfl

/-- The first power of four does not wrap. -/
theorem wrap_one (T : IntegralType) :
    T.wrap (T.promoted.wrap (Math.oneAt (T.half + 1))) = Math.oneAt (T.half + 1) := by
  have hnonneg := Math.oneAt_nonneg (T.half + 1)
  have hlt : Math.oneAt (T.half + 1) < T.top := T.four_pow_half_lt_top
  rw [wrap_promoted_eq hnonneg hlt, wrap_eq hnonneg hlt]

/-- The root is found by both loops. -/
theorem returns_sqrt_iff {x : Int} {r : Int × Bool} : Returns (sqrt T x) r ↔
    ∃ one, Returns (Math.highestPower x (Math.oneAt (T.half + 1))) one ∧
      Returns (sqrtFrom T x 0 one true) r := by
  have hsqrt : sqrt T x = fun fuel => (Math.highestPower x (Math.oneAt (T.half + 1)) fuel).bind
      fun one => sqrtFrom T x 0 one true fuel := by
    unfold sqrt
    simp only [one_eq, wrap_one, decide_true]
  rw [hsqrt]
  exact returns_bind_iff (Math.highestPower_independent x _)
    fun one => sqrtFrom_independent x 0 one true

/-- The floor of the square root, below the square of the side. -/
theorem returns_sqrt {X : Nat} (hX : X < 4 ^ T.side) :
    Returns (sqrt T X) (Nat.sqrt X, true) := by
  have hside : T.side ≤ T.half + 1 := by
    unfold side
    split <;> omega
  obtain ⟨k, hk, hone, hXk, hle⟩ := Math.returns_highestPower (T.half + 1)
    (lt_of_lt_of_le hX (Nat.pow_le_pow_right (by decide) hside))
  -- "one" is the highest power of four up to `X`, and the root has as many digits.
  have hks : k ≤ T.side := by
    cases k with
    | zero => exact Nat.zero_le _
    | succ k =>
      have hle' : (4 : Int) ^ k ≤ X := hle
      have hpow : (4 ^ k : Nat) ≤ X := by exact_mod_cast hle'
      exact (Nat.pow_lt_pow_iff_right (by decide)).mp (lt_of_le_of_lt hpow hX)
  have hfour : (2 : Nat) ^ k * 2 ^ k = 4 ^ k := by rw [← Nat.mul_pow]
  have hfrom := returns_sqrtFrom true T.four_pow_side_le_top hX k 0
    (by rw [Nat.zero_add]; exact Nat.pow_le_pow_right (by decide) hks) (Nat.zero_le _)
    (by rwa [Nat.zero_add, hfour])
  simp only [Nat.cast_zero, mul_zero, sub_zero] at hfrom
  exact returns_sqrt_iff.mpr ⟨Math.oneAt k, hone, hfrom⟩

/-- The first step of a signed type overflows where one of the two top bits is set. -/
theorem not_returns_sqrt_fits {x r : Int} (hsigned : T.signed = true) (hx : 4 ^ T.half ≤ x) :
    ¬ Returns (sqrt T x) (r, true) := by
  rw [returns_sqrt_iff]
  intro ⟨one, hone, fuel, hfrom⟩
  have hstart : Math.oneAt (T.half + 1) = 4 ^ T.half := rfl
  have hpos : (0 : Int) < 4 ^ T.half := by positivity
  have hfirst : Returns (Math.highestPower x (Math.oneAt (T.half + 1))) (4 ^ T.half) :=
    ⟨1, by rw [Math.highestPower, hstart, if_neg (not_lt.mpr hx)]⟩
  cases hone.unique (Math.highestPower_independent _ _) hfirst
  cases fuel with
  | zero => cases hfrom
  | succ fuel =>
    have hsum : T.promoted.wrap (0 + 4 ^ T.half) = 4 ^ T.half := by
      rw [zero_add]
      exact wrap_promoted_eq (le_of_lt hpos) T.four_pow_half_lt_top
    -- Twice "one" is the first value that is too large.
    have htop : T.top = 2 * 4 ^ T.half := by
      cases T <;> first | rfl | cases hsigned
    have hne : ∀ v, T.wrap v ≠ 0 + 2 * 4 ^ T.half := by
      intro v heq
      have hlt := T.wrap_lt v
      omega
    rw [sqrtFrom_succ, if_pos (ne_of_gt hpos), hsum, if_pos hx, decide_eq_false (hne _),
      Bool.and_false] at hfrom
    exact Bool.false_ne_true (sqrtFrom_inexact hfrom).symm

/-! ## The root in the distances -/

/-- The same signed type, which is not promoted. -/
structure SameType (T : IntegralType) (S : CType) : Prop where
  promoted : T.promoted = T
  signed : T.signed = true
  bits : T.bits = S.bits

/-- `int` in both models. -/
theorem sameType_int : SameType .int .int := ⟨rfl, rfl, rfl⟩

/-- `long long` in both models. -/
theorem sameType_long_long : SameType .long_long .long_long := ⟨rfl, rfl, rfl⟩

variable {S : CType}

/-- Both wrap alike. -/
theorem SameType.wrap (h : SameType T S) (v : Int) : T.wrap v = S.wrap v := by
  rw [IntegralType.wrap, if_pos h.signed, h.bits, CType.wrap]

/-- Both wrap alike after promotion. -/
theorem SameType.wrap_wrap (h : SameType T S) (v : Int) :
    T.wrap (T.promoted.wrap v) = S.wrap v := by
  rw [h.promoted, h.wrap, h.wrap, CType.wrap, CType.wrap, Int.bmod_bmod]

/-- Both loops find the same root. -/
theorem map_fst_sqrtFrom (h : SameType T S) (x res one : Int) (fuel : Nat) :
    (sqrtFrom T x res one fits fuel).map Prod.fst = Math.sqrtFrom S x res one fuel := by
  induction fuel generalizing x res one fits with
  | zero => rfl
  | succ fuel ih =>
    rw [sqrtFrom_succ, Math.sqrtFrom, h.wrap_wrap, h.wrap_wrap, h.promoted, h.wrap, h.wrap]
    split
    · split
      · exact ih ..
      · exact ih ..
    · rfl

/-- The root that the distances use is this one without the report of overflows. -/
theorem map_fst_sqrt (h : SameType T S) (x : Int) (fuel : Nat) :
    (sqrt T x fuel).map Prod.fst = Math.sqrt S x fuel := by
  have hone : T.wrap (T.promoted.wrap ((1 : Int) <<< (T.bits - 2))) =
      S.wrap ((1 : Int) <<< (S.bits - 2)) := by rw [h.wrap_wrap, h.bits]
  simp only [sqrt, Math.sqrt, hone, Option.map_bind]
  exact congrArg _ (funext fun one => map_fst_sqrtFrom h x 0 one fuel)

/-! ## Which arguments have a root -/

/-- `sqrt<T>(x)` ends without an overflow, with the floor of the square root. -/
def Correct (T : IntegralType) (x : Int) : Prop :=
  ∃ r, Returns (sqrt T x) (r, true) ∧ r * r ≤ x ∧ x < (r + 1) * (r + 1)

/-- For a number that is not negative, `sqrt` is correct exactly if the type is unsigned or the two
    top bits of the number are clear. -/
theorem sqrt_correct_iff (T : IntegralType) (x : Int) (hx : 0 ≤ x) (hT : T.wrap x = x) :
    Correct T x ↔ T.signed = false ∨ x < 2 ^ (T.bits - 2) := by
  have hbound : (2 : Int) ^ (T.bits - 2) = 4 ^ T.half := by
    rw [T.bits_eq, Nat.add_sub_cancel, pow_mul]
    rfl
  rw [hbound]
  constructor
  · intro ⟨r, hr, _⟩
    cases hsigned : T.signed with
    | false => exact .inl rfl
    | true => exact .inr (not_le.mp fun hge => not_returns_sqrt_fits hsigned hge hr)
  · intro h
    have hlt : x < 4 ^ T.side := by
      cases hsigned : T.signed with
      | false =>
        -- All values of an unsigned type are below.
        have htop : T.top = 4 ^ T.side := by
          cases T <;> first | rfl | cases hsigned
        rw [← htop, ← hT]
        exact T.wrap_lt x
      | true =>
        rw [hsigned] at h
        rw [side, if_pos hsigned]
        exact h.resolve_left fun heq => Bool.false_ne_true heq.symm
    obtain ⟨X, rfl⟩ := Int.eq_ofNat_of_zero_le hx
    have hlow := Nat.sqrt_le X
    have hhigh := Nat.lt_succ_sqrt X
    exact ⟨Nat.sqrt X, returns_sqrt (by exact_mod_cast hlt), by exact_mod_cast hlow,
      by exact_mod_cast hhigh⟩

/-- The greatest unsigned number. -/
theorem sqrt_correct_example : Correct .unsigned_int 4294967295 :=
  (sqrt_correct_iff .unsigned_int 4294967295 (by decide) (by decide)).mpr (.inl rfl)

/-- The root of `2 ^ 30` as an `int` overflows. -/
theorem not_sqrt_correct : ¬∀ T x, 0 ≤ x → IntegralType.wrap T x = x → Correct T x := by
  intro h
  have hcorrect := (sqrt_correct_iff .int (2 ^ 30) (by decide) (by decide)).mp
    (h .int (2 ^ 30) (by decide) (by decide))
  exact absurd hcorrect (by decide)

end Math.Checked

end Epos
