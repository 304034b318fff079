import Mathlib.Algebra.BigOperators.Intervals
import Mathlib.Algebra.BigOperators.Ring.Finset
import Mathlib.Algebra.Order.BigOperators.Group.Finset
import Mathlib.Tactic.Ring

/-!
# Numbers as little-endian digits

The value of the first `n` digits of a sequence, products column by column, and the
quotient that Barrett's method takes from a constant in place of a division. The base is
arbitrary, and nothing here is about machine words.
-/

namespace Digits

open Finset

variable {B n m s : Nat} {a b : Nat → Nat}

/-- The number that the first `n` digits of `a` stand for. -/
def value (B n : Nat) (a : Nat → Nat) : Nat := ∑ i ∈ range n, a i * B ^ i

/-- No digit. -/
@[simp] theorem value_zero : value B 0 a = 0 := rfl

/-- One digit more. -/
theorem value_succ : value B (n + 1) a = value B n a + a n * B ^ n := sum_range_succ _ n

/-- The value only depends on the digits. -/
theorem value_congr (h : ∀ i < n, a i = b i) : value B n a = value B n b :=
  sum_congr rfl fun i hi => by rw [h i (mem_range.mp hi)]

/-- The value of `n` digits is below the `n`-th power of the base. -/
theorem value_lt (h : ∀ i < n, a i < B) : value B n a < B ^ n := by
  induction n with
  | zero => exact Nat.one_pos
  | succ n ih =>
    have hlow := ih fun i hi => h i (Nat.lt_succ_of_lt hi)
    have hdigit : (a n + 1) * B ^ n ≤ B * B ^ n := Nat.mul_le_mul_right _ (h n n.lt_succ_self)
    rw [Nat.add_mul, Nat.one_mul] at hdigit
    rw [value_succ, Nat.pow_succ']
    omega

/-- The digits below and above a position. -/
theorem value_add : value B (m + n) a = value B m a + B ^ m * value B n fun i => a (m + i) := by
  unfold value
  rw [sum_range_add, mul_sum]
  congr 1
  refine sum_congr rfl fun i _ => ?_
  rw [pow_add]
  ring

/-- The lower digits. -/
theorem value_mod (h : ∀ i < m, a i < B) : value B (m + n) a % B ^ m = value B m a := by
  rw [value_add, Nat.add_mul_mod_self_left, Nat.mod_eq_of_lt (value_lt h)]

/-- The upper digits. -/
theorem value_div (h : ∀ i < m, a i < B) :
    value B (m + n) a / B ^ m = value B n fun i => a (m + i) := by
  have hpos : 0 < B ^ m := Nat.zero_lt_of_lt (value_lt h)
  rw [value_add, Nat.add_mul_div_left _ _ hpos, Nat.div_eq_of_lt (value_lt h), Nat.zero_add]

/-- Leading zeros. -/
theorem value_of_zeros (hmn : m ≤ n) (h : ∀ i < n, m ≤ i → a i = 0) :
    value B n a = value B m a := by
  induction n, hmn using Nat.le_induction with
  | base => rfl
  | succ n hmn ih =>
    rw [value_succ, h n n.lt_succ_self hmn, Nat.zero_mul, Nat.add_zero,
      ih fun i hi => h i (Nat.lt_succ_of_lt hi)]

/-- A digit of a number. -/
theorem value_div_mod (h : ∀ i < n, a i < B) (hm : m < n) : value B n a / B ^ m % B = a m := by
  have hsplit : n = m + (n - m - 1 + 1) := by omega
  have hlow : ∀ i < m, a i < B := fun i hi => h i (by omega)
  rw [hsplit, value_div hlow, Nat.add_comm (n - m - 1), value_add]
  have hone : value B 1 (fun i => a (m + i)) = a m := by simp [value]
  rw [hone, Nat.pow_one, Nat.add_mul_mod_self_left, Nat.mod_eq_of_lt (h m hm)]

/-- The digits of a number. -/
theorem value_digits (x n : Nat) : value B n (fun i => x / B ^ i % B) = x % B ^ n := by
  induction n with
  | zero => rw [pow_zero, Nat.mod_one, value_zero]
  | succ n ih => rw [value_succ, ih, Nat.mod_pow_succ, Nat.mul_comm (B ^ n)]

/-- Digits taken together in groups of `k`. -/
theorem value_group (k : Nat) :
    value (B ^ k) n (fun i => value B k fun j => a (k * i + j)) = value B (k * n) a := by
  induction n with
  | zero => rfl
  | succ n ih => rw [value_succ, ih, Nat.mul_succ, value_add, ← pow_mul, Nat.mul_comm (value B k _)]

/-- The highest digit in which two numbers differ decides. -/
theorem value_lt_value (ha : ∀ i < n, a i < B) (h : a n < b n) :
    value B (n + 1) a < value B (n + 1) b := by
  have hlow := value_lt ha
  have hdigit : (a n + 1) * B ^ n ≤ b n * B ^ n := Nat.mul_le_mul_right _ h
  rw [Nat.add_mul, Nat.one_mul] at hdigit
  rw [value_succ, value_succ]
  omega

/-! ## Products -/

/-- The products that have the weight `B ^ c`. -/
def column (s : Nat) (a b : Nat → Nat) (c : Nat) : Nat :=
  ∑ j ∈ range (min s (c + 1)), if c - j < s then a j * b (c - j) else 0

/-- The products of a column. -/
theorem column_eq (c : Nat) :
    column s a b c = ∑ x ∈ range s ×ˢ range s with x.1 + x.2 = c, a x.1 * b x.2 := by
  unfold column
  rw [← sum_filter]
  refine sum_nbij' (fun j => (j, c - j)) Prod.fst ?_ ?_ ?_ ?_ ?_
  · intro j hj
    simp only [mem_filter, mem_range, mem_product] at hj ⊢
    omega
  · rintro ⟨j, k⟩ hjk
    simp only [mem_filter, mem_range, mem_product] at hjk ⊢
    omega
  · intro j _
    rfl
  · rintro ⟨j, k⟩ hjk
    simp only [mem_filter, mem_range, mem_product] at hjk
    have hk : c - j = k := by omega
    simp only [hk]
  · intro j _
    rfl

/-- A product is the sum of its columns. -/
theorem value_mul_value (n : Nat) (h : 2 * s ≤ n + 1) :
    value B s a * value B s b = ∑ c ∈ range n, column s a b c * B ^ c := by
  have hmaps : ∀ x ∈ range s ×ˢ range s, x.1 + x.2 ∈ range n := by
    rintro ⟨j, k⟩ hjk
    simp only [mem_range, mem_product] at hjk ⊢
    omega
  unfold value
  rw [sum_mul_sum, ← sum_product', ← sum_fiberwise_of_maps_to hmaps]
  refine sum_congr rfl fun c _ => ?_
  rw [column_eq, sum_mul]
  refine sum_congr rfl fun x hx => ?_
  rw [← (mem_filter.mp hx).2, pow_add]
  ring

/-- The columns below `n` are the product up to a multiple of `B ^ n`. -/
theorem value_mul_value_mod (n : Nat) :
    (value B s a * value B s b) % B ^ n = (∑ c ∈ range n, column s a b c * B ^ c) % B ^ n := by
  rw [value_mul_value (n + 2 * s) (by omega), sum_range_add]
  have hhigh : ∑ c ∈ range (2 * s), column s a b (n + c) * B ^ (n + c) =
      B ^ n * ∑ c ∈ range (2 * s), column s a b (n + c) * B ^ c := by
    rw [mul_sum]
    refine sum_congr rfl fun c _ => ?_
    rw [pow_add]
    ring
  rw [hhigh, Nat.add_mul_mod_self_left]

/-- Columns turned into digits from the lowest on, with the carry `v`. -/
theorem sum_columns {v d col : Nat → Nat} (hzero : v 0 = 0)
    (hstep : ∀ c < n, v c + col c = d c + B * v (c + 1)) :
    ∑ c ∈ range n, col c * B ^ c = value B n d + B ^ n * v n := by
  induction n with
  | zero => simp [hzero]
  | succ n ih =>
    have hn := hstep n n.lt_succ_self
    rw [sum_range_succ, ih fun c hc => hstep c (Nat.lt_succ_of_lt hc), value_succ]
    calc value B n d + B ^ n * v n + col n * B ^ n
        = value B n d + B ^ n * (v n + col n) := by ring
      _ = value B n d + B ^ n * (d n + B * v (n + 1)) := by rw [hn]
      _ = value B n d + d n * B ^ n + B ^ (n + 1) * v (n + 1) := by ring

/-! ## Barrett's quotient -/

variable {x μ : Nat}

/-- `q` from the leading digits of `x` and `μ`, where `μ` is `B ^ (2 * n) / m`. -/
def barrettQuotient (B n μ x : Nat) : Nat := x / B ^ (n - 1) * μ / B ^ (n + 1)

/-- The quotient is not too large. -/
theorem barrettQuotient_mul_le (hn : 0 < n) (hB : 0 < B) (hμ : μ * m ≤ B ^ (2 * n)) :
    barrettQuotient B n μ x * m ≤ x := by
  have hq : barrettQuotient B n μ x * B ^ (n + 1) ≤ x / B ^ (n - 1) * μ := Nat.div_mul_le_self _ _
  have hx : x / B ^ (n - 1) * B ^ (n - 1) ≤ x := Nat.div_mul_le_self _ _
  have hpow : B ^ (n + 1) * B ^ (n - 1) = B ^ (2 * n) := by
    rw [← pow_add]
    congr 1
    omega
  have hpos : 0 < B ^ (2 * n) := Nat.pow_pos hB
  refine Nat.le_of_mul_le_mul_right ?_ hpos
  calc barrettQuotient B n μ x * m * B ^ (2 * n)
      = barrettQuotient B n μ x * B ^ (n + 1) * (B ^ (n - 1) * m) := by rw [← hpow]; ring
    _ ≤ x / B ^ (n - 1) * μ * (B ^ (n - 1) * m) := Nat.mul_le_mul_right _ hq
    _ = x / B ^ (n - 1) * B ^ (n - 1) * (μ * m) := by ring
    _ ≤ x * B ^ (2 * n) := Nat.mul_le_mul hx hμ

/-- The quotient is at most two too small. -/
theorem lt_barrettQuotient (hn : 0 < n) (hB : 0 < B) (hx : x < B ^ (2 * n))
    (hμ : B ^ (2 * n) < (μ + 1) * m) (hμB : μ ≤ B ^ (n + 1)) :
    x < (barrettQuotient B n μ x + 3) * m := by
  have hpow : B ^ (n + 1) * B ^ (n - 1) = B ^ (2 * n) := by
    rw [← pow_add]
    congr 1
    omega
  have hpos : 0 < B ^ (n - 1) := Nat.pow_pos hB
  have hq : x / B ^ (n - 1) * μ < (barrettQuotient B n μ x + 1) * B ^ (n + 1) := by
    rw [Nat.mul_comm (barrettQuotient B n μ x + 1)]
    exact Nat.lt_mul_div_succ _ (Nat.pow_pos hB)
  have hx₁ : x < (x / B ^ (n - 1) + 1) * B ^ (n - 1) := by
    rw [Nat.mul_comm]
    exact Nat.lt_mul_div_succ x hpos
  have hlead : x / B ^ (n - 1) + 1 ≤ B ^ (n + 1) := by
    apply Nat.div_lt_of_lt_mul
    rw [Nat.mul_comm, hpow]
    exact hx
  -- one for each factor that is rounded down, and one for the quotient itself
  have hround : (x / B ^ (n - 1) + 1) * (μ + 1) ≤ (barrettQuotient B n μ x + 3) * B ^ (n + 1) := by
    calc (x / B ^ (n - 1) + 1) * (μ + 1)
        = x / B ^ (n - 1) * μ + (x / B ^ (n - 1) + 1) + μ := by ring
      _ ≤ (barrettQuotient B n μ x + 1) * B ^ (n + 1) + B ^ (n + 1) + B ^ (n + 1) := by omega
      _ = (barrettQuotient B n μ x + 3) * B ^ (n + 1) := by ring
  have hm : 0 < m := by
    by_contra hzero
    have : m = 0 := by omega
    rw [this, Nat.mul_zero] at hμ
    omega
  refine Nat.lt_of_mul_lt_mul_right (a := B ^ (2 * n)) ?_
  calc x * B ^ (2 * n)
      < (x / B ^ (n - 1) + 1) * B ^ (n - 1) * ((μ + 1) * m) :=
        Nat.mul_lt_mul_of_lt_of_le hx₁ (Nat.le_of_lt hμ) (Nat.lt_of_le_of_lt (Nat.zero_le _) hμ)
    _ = (x / B ^ (n - 1) + 1) * (μ + 1) * (B ^ (n - 1) * m) := by ring
    _ ≤ (barrettQuotient B n μ x + 3) * B ^ (n + 1) * (B ^ (n - 1) * m) :=
        Nat.mul_le_mul_right _ hround
    _ = (barrettQuotient B n μ x + 3) * m * B ^ (2 * n) := by rw [← hpow]; ring

end Digits
