import Epos.ForStd.Digits
import Epos.Utility.Bignum
import Mathlib.Data.Nat.ModEq

/-!
# Big number multiplication

The accumulators of the column loops never wrap, so the loops compute exact products; the
quotient of `barrett_reduction` is at most two too small, so its correcting loop ends after
two passes and leaves the product modulo `_mod`.
-/

namespace Epos

namespace Bignum

/-- The digits as numbers. -/
def Word.digit (w : Word) (i : Nat) : Nat := (w i).toNat

/-- The number that the first `n` digits stand for. -/
def Word.toNat (n : Nat) (w : Word) : Nat := Digits.value (2 ^ 32) n (Word.digit w)

/-- A digit has 32 bits. -/
theorem digit_lt (w : Word) (i : Nat) : Word.digit w i < 2 ^ 32 := (w i).toNat_lt

/-- A word of `n` digits is below the `n`-th power of the base. -/
theorem toNat_lt (n : Nat) (w : Word) : Word.toNat n w < (2 ^ 32) ^ n :=
  Digits.value_lt fun i _ => digit_lt w i

/-- The digit at the top. -/
theorem toNat_succ (n : Nat) (w : Word) :
    Word.toNat (n + 1) w = Word.toNat n w + (w n).toNat * (2 ^ 32) ^ n :=
  Digits.value_succ

/-- The value only depends on the digits. -/
theorem toNat_congr {n : Nat} {v w : Word} (h : ∀ i < n, v i = w i) :
    Word.toNat n v = Word.toNat n w :=
  Digits.value_congr fun i hi => by rw [Word.digit, Word.digit, h i hi]

/-- A digit above the word does not count. -/
theorem toNat_update {n i : Nat} (w : Word) (d : Digit) (h : n ≤ i) :
    Word.toNat n (Function.update w i d) = Word.toNat n w := by
  apply toNat_congr
  intro j hj
  exact Function.update_of_ne (by omega) _ _

/-! ## The accumulators -/

namespace Acc

/-- What `r0`, `r1` and `r2` hold together. -/
def toNat (acc : Acc) : Nat :=
  acc.r0.toNat + 2 ^ 32 * acc.r1.toNat + 2 ^ 64 * acc.r2.toNat

/-- No sum or product of the inner loop is cut off at 64 bits. -/
structure Fits (acc : Acc) (aj bk : Digit) : Prop where
  prod : aj.toNat * bk.toNat < 2 ^ 64
  r0 : acc.r0.toNat + aj.toNat * bk.toNat % 2 ^ 32 < 2 ^ 64
  r1 : acc.r1.toNat + (aj.toNat * bk.toNat / 2 ^ 32 +
    (acc.r0.toNat + aj.toNat * bk.toNat % 2 ^ 32) / 2 ^ 32) < 2 ^ 64
  r2 : acc.r2.toNat + (acc.r1.toNat + (aj.toNat * bk.toNat / 2 ^ 32 +
    (acc.r0.toNat + aj.toNat * bk.toNat % 2 ^ 32) / 2 ^ 32)) / 2 ^ 32 < 2 ^ 64

/-- The low accumulators are digits, and the high one has had `k` carries at most. -/
structure Small (k : Nat) (acc : Acc) : Prop where
  r0 : acc.r0.toNat < 2 ^ 32
  r1 : acc.r1.toNat < 2 ^ 32
  r2 : acc.r2.toNat ≤ k

/-- The largest product of two digits. -/
theorem prod_le (aj bk : Digit) : aj.toNat * bk.toNat ≤ (2 ^ 32 - 1) * (2 ^ 32 - 1) :=
  Nat.mul_le_mul (Nat.le_sub_one_of_lt aj.toNat_lt) (Nat.le_sub_one_of_lt bk.toNat_lt)

variable {acc : Acc} {k : Nat}

/-- A small accumulator has room for one product more. -/
theorem Small.fits (h : acc.Small k) (hk : k < 2 ^ 32) (aj bk : Digit) : acc.Fits aj bk := by
  have hprod := prod_le aj bk
  have h0 := h.r0
  have h1 := h.r1
  have h2 := h.r2
  constructor <;> omega

/-- One pass of the inner loop, without the conversions. -/
theorem Fits.add_eq {aj bk : Digit} (h : acc.Fits aj bk) :
    (acc.add aj bk).r0.toNat = (acc.r0.toNat + aj.toNat * bk.toNat % 2 ^ 32) % 2 ^ 32 ∧
    (acc.add aj bk).r1.toNat = (acc.r1.toNat + (aj.toNat * bk.toNat / 2 ^ 32 +
      (acc.r0.toNat + aj.toNat * bk.toNat % 2 ^ 32) / 2 ^ 32)) % 2 ^ 32 ∧
    (acc.add aj bk).r2.toNat = acc.r2.toNat + (acc.r1.toNat + (aj.toNat * bk.toNat / 2 ^ 32 +
      (acc.r0.toNat + aj.toNat * bk.toNat % 2 ^ 32) / 2 ^ 32)) / 2 ^ 32 := by
  have hprod := h.prod
  have h0 := h.r0
  have h1 := h.r1
  have h2 := h.r2
  have hbits : BITS_PER_DIGIT.toNat % 64 = 32 := rfl
  simp only [add, UInt64.toNat_add, UInt64.toNat_mul, UInt64.toNat_shiftRight,
    UInt64.toNat_toUInt32, UInt32.toNat_toUInt64, hbits, Nat.shiftRight_eq_div_pow]
  generalize aj.toNat * bk.toNat = p at hprod h0 h1 h2 ⊢
  omega

/-- One product more keeps it small. -/
theorem Small.add (h : acc.Small k) (hk : k < 2 ^ 32) (aj bk : Digit) :
    (acc.add aj bk).Small (k + 1) := by
  obtain ⟨e0, e1, e2⟩ := (h.fits hk aj bk).add_eq
  have hprod := prod_le aj bk
  have h0 := h.r0
  have h1 := h.r1
  have h2 := h.r2
  constructor
  · rw [e0]
    omega
  · rw [e1]
    omega
  · rw [e2]
    omega

/-- One product more adds its value. -/
theorem Small.toNat_add (h : acc.Small k) (hk : k < 2 ^ 32) (aj bk : Digit) :
    (acc.add aj bk).toNat = acc.toNat + aj.toNat * bk.toNat := by
  obtain ⟨e0, e1, e2⟩ := (h.fits hk aj bk).add_eq
  rw [toNat, toNat, e0, e1, e2]
  omega

/-- Shifted by a digit, the accumulator is small again. -/
theorem Small.shift (h : acc.Small k) (hk : k < 2 ^ 32) : acc.shift.Small 0 where
  r0 := h.r1
  r1 := Nat.lt_of_le_of_lt h.r2 hk
  r2 := Nat.le_refl 0

/-- The digit that is shifted out. -/
theorem toNat_shift : acc.toNat = acc.r0.toNat + 2 ^ 32 * acc.shift.toNat := by
  have hzero : acc.shift.r2.toNat = 0 := rfl
  have h0 : acc.shift.r0 = acc.r1 := rfl
  have h1 : acc.shift.r1 = acc.r2 := rfl
  rw [toNat, toNat, hzero, h0, h1]
  omega

end Acc

/-! ## The column loops -/

section Columns

variable {size off : Nat} {a b res : Word}

/-- The loop over a column adds its products. -/
theorem column_small {acc : Acc} (h : acc.Small 0) (i : Nat) :
    ∀ j < 2 ^ 32, (column size a b i acc j).Small j ∧
      (column size a b i acc j).toNat = acc.toNat + ∑ j ∈ Finset.range j,
        if i - j < size then Word.digit a j * Word.digit b (i - j) else 0
  | 0, _ => ⟨h, rfl⟩
  | j + 1, hj => by
    obtain ⟨hsmall, hsum⟩ := column_small h i j (by omega)
    rw [Finset.sum_range_succ, column]
    split
    · refine ⟨hsmall.add (by omega) _ _, ?_⟩
      rw [hsmall.toNat_add (by omega), hsum, Nat.add_assoc]
      rfl
    · exact ⟨⟨hsmall.r0, hsmall.r1, Nat.le_succ_of_le hsmall.r2⟩, hsum⟩

/-- The accumulators before the column `i`. -/
def carried (size : Nat) (a b : Word) (i : Nat) : Acc := (columns size 0 a b (fun _ => 0) i).2

/-- The accumulators behind the inner loop for the column `i`. -/
def summed (size : Nat) (a b : Word) (i : Nat) : Acc :=
  column size a b i (carried size a b i) (min size (i + 1))

/-- What is added to the accumulators depends neither on `res` nor on `off`. -/
theorem columns_snd (size off : Nat) (a b res : Word) (n : Nat) :
    (columns size off a b res n).2 = carried size a b n := by
  induction n with
  | zero => rfl
  | succ n ih =>
    rw [carried, columns, columns]
    dsimp only
    rw [ih]
    rfl

/-- The carry into the next column. -/
theorem carried_succ (i : Nat) : carried size a b (i + 1) = (summed size a b i).shift := rfl

/-- Every carry is small. -/
theorem carried_small (hsize : size < 2 ^ 32) (i : Nat) : (carried size a b i).Small 0 := by
  induction i with
  | zero => exact ⟨Nat.two_pow_pos 32, Nat.two_pow_pos 32, Nat.le_refl 0⟩
  | succ i ih => exact (column_small ih i _ (by omega)).1.shift (by omega)

/-- Every sum is small. -/
theorem summed_small (hsize : size < 2 ^ 32) (i : Nat) :
    (summed size a b i).Small (min size (i + 1)) :=
  (column_small (carried_small hsize i) i _ (by omega)).1

/-- A carry and its column make a digit and the next carry. -/
theorem carried_add (hsize : size < 2 ^ 32) (i : Nat) :
    (carried size a b i).toNat + Digits.column size (Word.digit a) (Word.digit b) i =
      (summed size a b i).r0.toNat + 2 ^ 32 * (carried size a b (i + 1)).toNat := by
  rw [carried_succ, ← Acc.toNat_shift]
  exact (column_small (carried_small hsize i) i _ (by omega)).2.symm

/-- No accumulator is cut off in any pass of the inner loops of the first `n` columns. -/
def Fits (size : Nat) (a b : Word) (n : Nat) : Prop :=
  ∀ i < n, ∀ j < min size (i + 1), i - j < size →
    (column size a b i (carried size a b i) j).Fits (a j) (b (i - j))

/-- No accumulator overflows. -/
theorem fits (hsize : size < 2 ^ 32) (n : Nat) : Fits size a b n := by
  intro i _ j hj _
  exact (column_small (carried_small hsize i) i j (by omega)).1.fits (by omega) _ _

/-- The digit of the column `i`. -/
def columnDigit (size : Nat) (a b : Word) (i : Nat) : Digit := (summed size a b i).r0.toUInt32

/-- The digit of a column is that of its sum. -/
theorem columnDigit_toNat (hsize : size < 2 ^ 32) (i : Nat) :
    (columnDigit size a b i).toNat = (summed size a b i).r0.toNat := by
  rw [columnDigit, UInt64.toNat_toUInt32]
  exact Nat.mod_eq_of_lt (summed_small hsize i).r0

/-- The loop over the columns writes the digits from `off` on. -/
theorem columns_fst (t n : Nat) :
    (columns size off a b res n).1 t =
      if off + t < n then columnDigit size a b (off + t) else res t := by
  induction n with
  | zero => rfl
  | succ n ih =>
    have hstep : (columns size off a b res (n + 1)).1 = if off ≤ n then
        Function.update (columns size off a b res n).1 (n - off) (columnDigit size a b n)
        else (columns size off a b res n).1 := by
      rw [columns]
      dsimp only
      rw [columns_snd]
      rfl
    rw [hstep]
    split
    · by_cases ht : t = n - off
      · have hn : off + t = n := by omega
        rw [ht, Function.update_self, if_pos (by omega), ← ht, hn]
      · rw [Function.update_of_ne ht, ih]
        by_cases hlt : off + t < n
        · rw [if_pos hlt, if_pos (by omega)]
        · rw [if_neg hlt, if_neg (by omega)]
    · rw [ih, if_neg (by omega), if_neg (by omega)]

/-- The digits of the first `n` columns are the product modulo the base to the `n`. -/
theorem value_columnDigit (hsize : size < 2 ^ 32) (n : Nat) :
    ∑ c ∈ Finset.range n, Digits.column size (Word.digit a) (Word.digit b) c * (2 ^ 32) ^ c =
      Word.toNat n (columnDigit size a b) + (2 ^ 32) ^ n * (carried size a b n).toNat :=
  Digits.sum_columns rfl fun c _ => by
    show _ = (columnDigit size a b c).toNat + _
    rw [columnDigit_toNat hsize, carried_add hsize]

/-- The digits of the columns are those of the product. -/
theorem toNat_columnDigit (hsize : size < 2 ^ 32) (n : Nat) :
    Word.toNat n (columnDigit size a b) = Word.toNat size a * Word.toNat size b % (2 ^ 32) ^ n := by
  show _ = Digits.value _ _ _ * Digits.value _ _ _ % _
  rw [Digits.value_mul_value_mod, value_columnDigit hsize, Nat.add_mul_mod_self_left,
    Nat.mod_eq_of_lt (toNat_lt n _)]

/-- Behind the last column, `r0` is the highest digit of the product. -/
theorem columnDigit_last (hpos : 0 < size) :
    columnDigit size a b (2 * size - 1) =
      (carried size a b (2 * size - 1)).r0.toUInt32 := by
  -- no pair of digits belongs to this column
  have hnone : ∀ j ≤ size, ∀ acc, column size a b (2 * size - 1) acc j = acc := by
    intro j hj acc
    induction j with
    | zero => rfl
    | succ j ih => rw [column, if_neg (by omega), ih (by omega)]
  rw [columnDigit, summed, Nat.min_eq_left (by omega), hnone size (Nat.le_refl size)]

/-- What `product` leaves at a digit. -/
theorem product_apply (hpos : 0 < size) (t : Nat) (h : off + t < 2 * size) :
    product size off a b res t = columnDigit size a b (off + t) := by
  rw [product]
  dsimp only
  rw [columns_snd, ← columnDigit_last hpos]
  by_cases ht : t = 2 * size - 1 - off
  · have hlast : 2 * size - 1 = off + t := by omega
    rw [ht, Function.update_self, ← ht, hlast]
  · rw [Function.update_of_ne ht, columns_fst, if_pos (by omega)]

/-- `simple_mult`. -/
theorem toNat_simpleMult (hsize : size < 2 ^ 32) (hpos : 0 < size) :
    Word.toNat (2 * size) (simpleMult res a b size) = Word.toNat size a * Word.toNat size b := by
  have hdigits : Word.toNat (2 * size) (simpleMult res a b size) =
      Word.toNat (2 * size) (columnDigit size a b) :=
    toNat_congr fun t ht => by
      rw [simpleMult, product_apply hpos t (by omega), Nat.zero_add]
  rw [hdigits, toNat_columnDigit hsize]
  apply Nat.mod_eq_of_lt
  calc Word.toNat size a * Word.toNat size b
      < (2 ^ 32) ^ size * (2 ^ 32) ^ size := Nat.mul_lt_mul'' (toNat_lt size a) (toNat_lt size b)
    _ = (2 ^ 32) ^ (2 * size) := by
      rw [← Nat.pow_add]
      congr 1
      omega

end Columns

/-! ## Subtraction and comparison -/

/-- One pass of `simple_sub` stores one digit. -/
theorem simpleSub_succ (res a b : Word) (n : Nat) :
    ∃ (d : Digit) (borrow : DoubleDigit),
      simpleSub res a b (n + 1) = (Function.update (simpleSub res a b n).1 n d, borrow) ∧
      ((simpleSub res a b n).2.toNat ≤ 1 → borrow.toNat ≤ 1 ∧
        d.toNat + (b n).toNat + (simpleSub res a b n).2.toNat =
          (a n).toNat + borrow.toNat * 2 ^ 32) := by
  rw [simpleSub]
  generalize simpleSub res a b n = before
  obtain ⟨res, borrow⟩ := before
  dsimp only
  have hx := (a n).toNat_lt
  have hy := (b n).toNat_lt
  have haux : ((1 : DoubleDigit) <<< BITS_PER_DIGIT).toNat = 2 ^ 32 := rfl
  have hbnow (h : borrow.toNat ≤ 1) :
      ((b n).toUInt64 + borrow).toNat = (b n).toNat + borrow.toNat := by
    rw [UInt64.toNat_add, UInt32.toNat_toUInt64]
    omega
  split
  · -- One is borrowed from the next digit.
    rename_i hlt
    refine ⟨_, _, rfl, fun h => ⟨Nat.le_refl 1, ?_⟩⟩
    have hlt' := UInt64.lt_iff_toNat_lt.mp hlt
    rw [hbnow h, UInt32.toNat_toUInt64] at hlt'
    have hle : (b n).toUInt64 + borrow ≤ (1 : DoubleDigit) <<< BITS_PER_DIGIT := by
      rw [UInt64.le_iff_toNat_le, hbnow h, haux]
      omega
    have hone : (1 : DoubleDigit).toNat = 1 := rfl
    rw [UInt64.toNat_toUInt32, UInt64.toNat_add, UInt64.toNat_sub_of_le _ _ hle, haux, hbnow h,
      UInt32.toNat_toUInt64, hone]
    omega
  · rename_i hlt
    refine ⟨_, _, rfl, fun h => ⟨Nat.zero_le 1, ?_⟩⟩
    have hle := UInt64.not_lt.mp hlt
    have hle' := UInt64.le_iff_toNat_le.mp hle
    rw [hbnow h, UInt32.toNat_toUInt64] at hle'
    have hzero : (0 : DoubleDigit).toNat = 0 := rfl
    rw [UInt64.toNat_toUInt32, UInt64.toNat_sub_of_le _ _ hle, hbnow h, UInt32.toNat_toUInt64,
      hzero]
    omega

/-- `simple_sub` writes its digits only. -/
theorem simpleSub_of_le (res a b : Word) (n t : Nat) (h : n ≤ t) :
    (simpleSub res a b n).1 t = res t := by
  induction n with
  | zero => rfl
  | succ n ih =>
    obtain ⟨d, borrow, heq, -⟩ := simpleSub_succ res a b n
    rw [heq]
    exact (Function.update_of_ne (by omega) _ _).trans (ih (by omega))

/-- `simple_sub` subtracts, with a borrow. -/
theorem toNat_simpleSub (res a b : Word) (n : Nat) :
    Word.toNat n (simpleSub res a b n).1 + Word.toNat n b =
      Word.toNat n a + (simpleSub res a b n).2.toNat * (2 ^ 32) ^ n ∧
    (simpleSub res a b n).2.toNat ≤ 1 := by
  induction n with
  | zero => exact ⟨rfl, Nat.zero_le 1⟩
  | succ n ih =>
    obtain ⟨hsum, hborrow⟩ := ih
    obtain ⟨d, borrow, heq, hstep⟩ := simpleSub_succ res a b n
    obtain ⟨hle, hdigit⟩ := hstep hborrow
    rw [heq]
    dsimp only
    refine ⟨?_, hle⟩
    rw [toNat_succ, toNat_succ, toNat_succ, toNat_update _ _ (Nat.le_refl n), Function.update_self]
    generalize (simpleSub res a b n).2.toNat = before at hsum hdigit
    calc Word.toNat n (simpleSub res a b n).1 + d.toNat * (2 ^ 32) ^ n +
          (Word.toNat n b + (b n).toNat * (2 ^ 32) ^ n)
        = (Word.toNat n (simpleSub res a b n).1 + Word.toNat n b) +
          (d.toNat + (b n).toNat) * (2 ^ 32) ^ n := by ring
      _ = Word.toNat n a + (d.toNat + (b n).toNat + before) * (2 ^ 32) ^ n := by rw [hsum]; ring
      _ = Word.toNat n a + (a n).toNat * (2 ^ 32) ^ n + borrow.toNat * (2 ^ 32) ^ (n + 1) := by
        rw [hdigit]; ring

/-- The difference, when it is known modulo the base to the `n`. -/
theorem toNat_simpleSub_mod (res a b : Word) (n x : Nat) (h : x < (2 ^ 32) ^ n)
    (hx : (x + Word.toNat n b) % (2 ^ 32) ^ n = Word.toNat n a % (2 ^ 32) ^ n) :
    Word.toNat n (simpleSub res a b n).1 = x := by
  have hsum := (toNat_simpleSub res a b n).1
  have hcongr : Nat.ModEq ((2 ^ 32) ^ n)
      (Word.toNat n (simpleSub res a b n).1 + Word.toNat n b) (x + Word.toNat n b) := by
    rw [Nat.ModEq, hsum, Nat.add_mul_mod_self_right, hx]
  have heq := Nat.ModEq.add_right_cancel' _ hcongr
  rwa [Nat.ModEq, Nat.mod_eq_of_lt (toNat_lt n _), Nat.mod_eq_of_lt h] at heq

/-- `cmp` compares the numbers. -/
theorem cmp_eq (a b : Word) (n : Nat) :
    cmp a b n = if Word.toNat n b < Word.toNat n a then 1
      else if Word.toNat n a < Word.toNat n b then -1 else 0 := by
  induction n with
  | zero => rfl
  | succ n ih =>
    rw [cmp]
    by_cases hgt : b n < a n
    · have h : Word.toNat (n + 1) b < Word.toNat (n + 1) a :=
        Digits.value_lt_value (fun i _ => digit_lt b i) (UInt32.lt_iff_toNat_lt.mp hgt)
      rw [if_pos hgt, if_pos h]
    · by_cases hlt : a n < b n
      · have h : Word.toNat (n + 1) a < Word.toNat (n + 1) b :=
          Digits.value_lt_value (fun i _ => digit_lt a i) (UInt32.lt_iff_toNat_lt.mp hlt)
        rw [if_neg hgt, if_pos hlt, if_neg (by omega), if_pos h]
      · have heq : a n = b n := UInt32.le_antisymm (UInt32.not_lt.mp hgt) (UInt32.not_lt.mp hlt)
        rw [if_neg hgt, if_neg hlt, ih, toNat_succ, toNat_succ, heq]
        simp only [Nat.add_lt_add_iff_right]

/-- `cmp` compares the values. -/
theorem cmp_nonneg_iff (a b : Word) (n : Nat) :
    0 ≤ cmp a b n ↔ Word.toNat n b ≤ Word.toNat n a := by
  rw [cmp_eq]
  split
  · simp only [Int.zero_le_ofNat, true_iff]
    omega
  · split
    · simp only [Int.reduceNeg, Int.reduceLE, false_iff]
      omega
    · simp only [Int.le_refl, true_iff]
      omega

/-- `cmp` finds equal values. -/
theorem cmp_eq_zero_iff (a b : Word) (n : Nat) :
    cmp a b n = 0 ↔ Word.toNat n a = Word.toNat n b := by
  rw [cmp_eq]
  split
  · simp only [Int.reduceEq, false_iff]
    omega
  · split
    · simp only [Int.reduceNeg, Int.reduceEq, false_iff]
      omega
    · simp only [true_iff]
      omega

/-! ## Reduction -/

section Reduction

variable (f : Field) {size : Nat}

/-- The test of the loop says that the modulus is not above the remainder. -/
theorem correct_cond (r : Word) :
    0 < r size ∨ 0 ≤ cmp r f.mod size ↔ Word.toNat size f.mod ≤ Word.toNat (size + 1) r := by
  have hmod := toNat_lt size f.mod
  rw [toNat_succ, cmp_nonneg_iff]
  by_cases hhigh : r size = 0
  · have hzero : (0 : Digit).toNat = 0 := rfl
    rw [hhigh, hzero, Nat.zero_mul, Nat.add_zero]
    exact or_iff_right (UInt32.lt_irrefl 0)
  · have hpos : 0 < (r size).toNat := by
      by_contra hzero
      exact hhigh (UInt32.toNat_inj.mp (Nat.eq_zero_of_not_pos hzero))
    have hlarge := Nat.mul_le_mul_right ((2 ^ 32) ^ size) hpos
    rw [Nat.succ_mul, Nat.zero_mul] at hlarge
    constructor
    · intro _
      omega
    · intro _
      exact Or.inl (UInt32.lt_iff_toNat_lt.mpr hpos)

/-- `if(simple_sub(r, r, _mod.data, size)) r[size]--;`. -/
def subtractMod (size : Nat) (r : Word) : Word :=
  let (r, borrow) := simpleSub r r f.mod size
  if borrow ≠ 0 then Function.update r size (r size - 1) else r

/-- A round of the loop subtracts the modulus. -/
theorem toNat_subtractMod (r : Word) (h : Word.toNat size f.mod ≤ Word.toNat (size + 1) r) :
    Word.toNat (size + 1) (subtractMod f size r) + Word.toNat size f.mod =
      Word.toNat (size + 1) r := by
  obtain ⟨hsum, hborrow⟩ := toNat_simpleSub r r f.mod size
  have hlow := toNat_lt size (simpleSub r r f.mod size).1
  have hhigh := simpleSub_of_le r r f.mod size size (Nat.le_refl size)
  rw [toNat_succ] at h
  rw [subtractMod]
  dsimp only
  split
  · rename_i hne
    have hone : (simpleSub r r f.mod size).2.toNat = 1 := by
      have : (simpleSub r r f.mod size).2.toNat ≠ 0 := fun hzero =>
        hne (UInt64.toNat_inj.mp hzero)
      omega
    rw [hone, Nat.one_mul] at hsum
    -- a borrow is always covered by the highest digit
    have hpos : 0 < (r size).toNat := by
      by_contra hzero
      rw [Nat.eq_zero_of_not_pos hzero, Nat.zero_mul] at h
      omega
    have hdec : (r size - 1).toNat = (r size).toNat - 1 :=
      UInt32.toNat_sub_of_le _ _ (UInt32.le_iff_toNat_le.mpr hpos)
    have hcover : (r size).toNat * (2 ^ 32) ^ size =
        ((r size).toNat - 1) * (2 ^ 32) ^ size + (2 ^ 32) ^ size := by
      rw [← Nat.succ_mul]
      congr 1
      omega
    rw [toNat_succ, toNat_succ, toNat_update _ _ (Nat.le_refl size), Function.update_self, hhigh,
      hdec]
    omega
  · rename_i heq
    have hzero : (simpleSub r r f.mod size).2.toNat = 0 := by
      rw [not_not.mp heq]
      rfl
    rw [hzero, Nat.zero_mul] at hsum
    rw [toNat_succ, toNat_succ, hhigh]
    omega

/-- One round of the loop. -/
theorem correct_succ (passes : Nat) (r : Word)
    (h : Word.toNat size f.mod ≤ Word.toNat (size + 1) r) :
    correct f size (passes + 1) r = correct f size passes (subtractMod f size r) := by
  rw [correct, if_pos ((correct_cond f r).mpr h)]
  rfl

/-- Each pass of the correcting loop takes the modulus off once. -/
theorem correct_eq (passes : Nat) (r : Word)
    (h : Word.toNat (size + 1) r < (passes + 1) * Word.toNat size f.mod) :
    ∃ r', correct f size passes r = some r' ∧
      Word.toNat size r' = Word.toNat (size + 1) r % Word.toNat size f.mod := by
  -- nothing to subtract, or one subtraction and the rest of the passes
  by_cases hlt : Word.toNat (size + 1) r < Word.toNat size f.mod
  · have hcond := mt (correct_cond f r).mp (Nat.not_le_of_lt hlt)
    have hhigh : (r size).toNat = 0 := by
      by_contra hne
      exact hcond (Or.inl (UInt32.lt_iff_toNat_lt.mpr (Nat.pos_of_ne_zero hne)))
    have hr : correct f size passes r = some r := by
      rw [correct.eq_def]
      exact if_neg hcond
    refine ⟨r, hr, ?_⟩
    rw [Nat.mod_eq_of_lt hlt, toNat_succ, hhigh, Nat.zero_mul, Nat.add_zero]
  · have hle := Nat.le_of_not_lt hlt
    cases passes with
    | zero =>
      rw [Nat.zero_add, Nat.one_mul] at h
      exact absurd h hlt
    | succ passes =>
      have hsub := toNat_subtractMod f r hle
      rw [Nat.succ_mul] at h
      obtain ⟨r', hr', hmod⟩ := correct_eq passes (subtractMod f size r) (by omega)
      refine ⟨r', (correct_succ f passes r hle).trans hr', ?_⟩
      rw [hmod, ← hsub, Nat.add_mod_right]

/-- `q` of `barrett_reduction`. -/
def quotient (a : Word) (size : Nat) : Word :=
  product (size + 1) (size + 1) (fun j => a (j + (size - 1))) f.barrett_u fun _ => 0

/-- `_mod`, and a zero behind it. -/
def paddedMod (size : Nat) : Word := fun k => if k = size then 0 else f.mod k

/-- The stored constants of a field modulo `m`. -/
structure Field.Correct (m : Nat) : Prop where
  digits_pos : 0 < f.DIGITS
  digits_lt : f.DIGITS + 1 < 2 ^ 32
  mod_eq : Word.toNat f.DIGITS f.mod = m
  barrett_mul_le : Word.toNat (f.DIGITS + 1) f.barrett_u * m ≤ (2 ^ 32) ^ (2 * f.DIGITS)
  lt_barrett_succ_mul : (2 ^ 32) ^ (2 * f.DIGITS) < (Word.toNat (f.DIGITS + 1) f.barrett_u + 1) * m

variable {f} {m : Nat}

/-- A zero on top changes no value. -/
theorem toNat_paddedMod (size : Nat) :
    Word.toNat (size + 1) (paddedMod f size) = Word.toNat size f.mod := by
  have hlast : paddedMod f size size = 0 := if_pos rfl
  have hzero : (0 : Digit).toNat = 0 := rfl
  rw [toNat_succ, hlast, hzero, Nat.zero_mul, Nat.add_zero]
  exact toNat_congr fun i hi => if_neg (by omega)

/-- The quotient of the source is that of Barrett. -/
theorem toNat_quotient (hsize : size + 1 < 2 ^ 32) (hpos : 0 < size) (a : Word) :
    Word.toNat (size + 1) (quotient f a size) =
      Digits.barrettQuotient (2 ^ 32) size (Word.toNat (size + 1) f.barrett_u)
        (Word.toNat (2 * size) a) := by
  have hlead : Word.toNat (2 * size) a / (2 ^ 32) ^ (size - 1) =
      Word.toNat (size + 1) fun j => a (j + (size - 1)) := by
    have hsplit : 2 * size = size - 1 + (size + 1) := by omega
    rw [hsplit, Word.toNat, Digits.value_div fun i _ => digit_lt a i]
    exact toNat_congr (w := fun j => a (j + (size - 1))) fun i _ => by rw [Nat.add_comm]
  have hdigits : Word.toNat (size + 1) (quotient f a size) =
      Word.toNat (size + 1) fun t => columnDigit (size + 1) (fun j => a (j + (size - 1)))
        f.barrett_u (size + 1 + t) :=
    toNat_congr fun t ht => product_apply (by omega) t (by omega)
  have hprod := toNat_columnDigit (a := fun j => a (j + (size - 1))) (b := f.barrett_u) hsize
    (size + 1 + (size + 1))
  have hdiv := Digits.value_div (B := 2 ^ 32) (m := size + 1) (n := size + 1)
    fun i _ => digit_lt (columnDigit (size + 1) (fun j => a (j + (size - 1))) f.barrett_u) i
  rw [hdigits, Digits.barrettQuotient, hlead]
  refine hdiv.symm.trans ?_
  show Word.toNat _ _ / _ = _
  rw [hprod, Nat.mod_eq_of_lt]
  rw [Nat.pow_add]
  exact Nat.mul_lt_mul'' (toNat_lt _ _) (toNat_lt _ _)

/-- `r` before the correcting loop. -/
def remainder (a : Word) (size : Nat) : Word :=
  let r := (columns (size + 1) 0 (quotient f a size) (paddedMod f size) (fun _ => 0) (size + 1)).1
  (simpleSub r a r (size + 1)).1

/-- Modulo the base to the `size + 1`, the difference is the exact one, as that is small. -/
theorem toNat_remainder (hsize : size + 1 < 2 ^ 32) (hpos : 0 < size) (a : Word)
    (hle : Word.toNat (size + 1) (quotient f a size) * Word.toNat size f.mod ≤
      Word.toNat (2 * size) a)
    (hlt : Word.toNat (2 * size) a <
      (Word.toNat (size + 1) (quotient f a size) + 3) * Word.toNat size f.mod) :
    Word.toNat (size + 1) (remainder (f := f) a size) = Word.toNat (2 * size) a -
      Word.toNat (size + 1) (quotient f a size) * Word.toNat size f.mod := by
  let r := (columns (size + 1) 0 (quotient f a size) (paddedMod f size) (fun _ => 0) (size + 1)).1
  have hr : Word.toNat (size + 1) r = Word.toNat (size + 1) (quotient f a size) *
      Word.toNat size f.mod % (2 ^ 32) ^ (size + 1) := by
    rw [← toNat_paddedMod, ← toNat_columnDigit hsize]
    exact toNat_congr fun t ht => by
      rw [show r t = _ from columns_fst t (size + 1), Nat.zero_add, if_pos ht]
  have ha : Word.toNat (2 * size) a % (2 ^ 32) ^ (size + 1) = Word.toNat (size + 1) a := by
    have hsplit : 2 * size = size + 1 + (size - 1) := by omega
    rw [hsplit]
    exact Digits.value_mod fun i _ => digit_lt a i
  have hmod := toNat_lt size f.mod
  have hbase : (2 ^ 32) ^ (size + 1) = 2 ^ 32 * (2 ^ 32) ^ size := Nat.pow_succ'
  rw [Nat.add_mul] at hlt
  generalize Word.toNat (size + 1) (quotient f a size) * Word.toNat size f.mod = qm at *
  apply toNat_simpleSub_mod r a r _ _ (by omega)
  rw [hr, Nat.add_mod_mod, Nat.sub_add_cancel hle, ha, Nat.mod_eq_of_lt (toNat_lt _ _)]

/-- `barrett_reduction`. -/
theorem barrettReduction_eq (hf : f.Correct m) (passes : Nat) (hpasses : 2 ≤ passes)
    (res a : Word) :
    ∃ r, barrettReduction f passes res a f.DIGITS = some r ∧
      Word.toNat f.DIGITS r = Word.toNat (2 * f.DIGITS) a % m := by
  have hq := toNat_quotient (f := f) hf.digits_lt hf.digits_pos a
  -- the quotient is never too large, and too small by two at most
  have hle : Word.toNat (f.DIGITS + 1) (quotient f a f.DIGITS) * Word.toNat f.DIGITS f.mod ≤
      Word.toNat (2 * f.DIGITS) a := by
    rw [hq, hf.mod_eq]
    exact Digits.barrettQuotient_mul_le hf.digits_pos (by omega) hf.barrett_mul_le
  have hlt : Word.toNat (2 * f.DIGITS) a <
      (Word.toNat (f.DIGITS + 1) (quotient f a f.DIGITS) + 3) * Word.toNat f.DIGITS f.mod := by
    rw [hq, hf.mod_eq]
    exact Digits.lt_barrettQuotient hf.digits_pos (by omega) (toNat_lt _ _)
      hf.lt_barrett_succ_mul (Nat.le_of_lt (toNat_lt _ _))
  have hrem := toNat_remainder hf.digits_lt hf.digits_pos a hle hlt
  have hbound : Word.toNat (f.DIGITS + 1) (remainder (f := f) a f.DIGITS) <
      (passes + 1) * Word.toNat f.DIGITS f.mod := by
    have hthree : 3 * Word.toNat f.DIGITS f.mod ≤ (passes + 1) * Word.toNat f.DIGITS f.mod :=
      Nat.mul_le_mul_right _ (by omega)
    rw [Nat.add_mul] at hlt
    omega
  obtain ⟨r, hr, hmod⟩ := correct_eq f passes _ hbound
  refine ⟨fun i => if i < f.DIGITS then r i else res i, ?_, ?_⟩
  · show (correct f f.DIGITS passes (remainder (f := f) a f.DIGITS)).map _ = _
    rw [hr]
    rfl
  · rw [toNat_congr fun i hi => if_pos hi, hmod, hrem]
    rw [hf.mod_eq, Nat.mul_comm _ m] at hle ⊢
    exact Nat.sub_mul_mod hle

end Reduction

/-! ## The fields -/

/-- The constants of the 16-byte field are right. -/
theorem bignum16_correct : bignum16.Correct (2 ^ 128 - 2 ^ 97 - 1) where
  digits_pos := by decide
  digits_lt := by decide
  mod_eq := by decide
  barrett_mul_le := by decide
  lt_barrett_succ_mul := by decide

/-- The constants of the 17-byte field are right. -/
theorem bignum17_correct : bignum17.Correct (2 ^ 130 - 5) where
  digits_pos := by decide
  digits_lt := by decide
  mod_eq := by decide
  barrett_mul_le := by decide
  lt_barrett_succ_mul := by decide

/-- A number of one digit. -/
theorem toNat_ofNat (n : Digit) {size : Nat} (hpos : 0 < size) :
    Word.toNat size (ofNat n) = n.toNat := by
  induction size, hpos using Nat.le_induction with
  | base => exact (toNat_succ 0 (ofNat n)).trans (by simp [ofNat, Word.toNat])
  | succ size hpos ih =>
    have hzero : ofNat n size = 0 := if_neg (by omega)
    rw [toNat_succ, ih, hzero]
    exact Nat.add_eq_left.mpr (Nat.zero_mul _)

/-- `operator*=` for any constants that are right. -/
theorem mulAssign_eq {f : Field} {m : Nat} (hf : f.Correct m) (passes : Nat) (hpasses : 2 ≤ passes)
    (a b : Word) (ha : Word.toNat f.DIGITS a < m) :
    ∃ r, mulAssign f passes a b = some r ∧
      Word.toNat f.DIGITS r = Word.toNat f.DIGITS a * Word.toNat f.DIGITS b % m := by
  rw [mulAssign]
  split
  · rename_i hone
    have hb : Word.toNat f.DIGITS b = 1 := by
      rw [(cmp_eq_zero_iff _ _ _).mp hone]
      exact toNat_ofNat 1 hf.digits_pos
    refine ⟨a, rfl, ?_⟩
    rw [hb, Nat.mul_one, Nat.mod_eq_of_lt ha]
  · rw [← toNat_simpleMult (Nat.lt_of_succ_lt hf.digits_lt) hf.digits_pos]
    exact barrettReduction_eq hf passes hpasses a _

/-! ## Addition -/

/-- One pass of `simple_add` stores one digit. -/
theorem simpleAdd_succ (res a b : Word) (n : Nat) :
    ∃ (d : Digit) (carry : DoubleDigit),
      simpleAdd res a b (n + 1) = (Function.update (simpleAdd res a b n).1 n d, carry) ∧
      ((simpleAdd res a b n).2.toNat ≤ 1 → carry.toNat ≤ 1 ∧
        d.toNat + carry.toNat * 2 ^ 32 =
          (simpleAdd res a b n).2.toNat + (a n).toNat + (b n).toNat) := by
  rw [simpleAdd]
  generalize simpleAdd res a b n = before
  obtain ⟨res, carry⟩ := before
  dsimp only
  refine ⟨_, _, rfl, fun h => ?_⟩
  have hx := (a n).toNat_lt
  have hy := (b n).toNat_lt
  -- three summands fit into a double digit
  have hsum : (carry + (a n).toUInt64 + (b n).toUInt64).toNat =
      carry.toNat + (a n).toNat + (b n).toNat := by
    rw [UInt64.toNat_add, UInt64.toNat_add, UInt32.toNat_toUInt64, UInt32.toNat_toUInt64]
    omega
  have hbits : BITS_PER_DIGIT.toNat % 64 = 32 := rfl
  have hshift : ((carry + (a n).toUInt64 + (b n).toUInt64) >>> BITS_PER_DIGIT).toNat =
      (carry.toNat + (a n).toNat + (b n).toNat) / 2 ^ 32 := by
    rw [UInt64.toNat_shiftRight, hbits, Nat.shiftRight_eq_div_pow, hsum]
  rw [UInt64.toNat_toUInt32, hsum]
  -- the carry of the source is a flag: 1 where the shifted sum is not zero
  split
  · rename_i hne
    have hpos : (carry.toNat + (a n).toNat + (b n).toNat) / 2 ^ 32 ≠ 0 := fun hzero =>
      hne (UInt64.toNat_inj.mp (hshift.trans hzero))
    have hone : (1 : DoubleDigit).toNat = 1 := rfl
    rw [hone]
    omega
  · rename_i heq
    have hzero : (carry.toNat + (a n).toNat + (b n).toNat) / 2 ^ 32 = 0 := by
      rw [← hshift, not_not.mp heq]
      rfl
    have hnone : (0 : DoubleDigit).toNat = 0 := rfl
    rw [hnone]
    omega

/-- `simple_add` adds, with a carry. -/
theorem toNat_simpleAdd (res a b : Word) (n : Nat) :
    Word.toNat n (simpleAdd res a b n).1 + (simpleAdd res a b n).2.toNat * (2 ^ 32) ^ n =
      Word.toNat n a + Word.toNat n b ∧
    (simpleAdd res a b n).2.toNat ≤ 1 := by
  induction n with
  | zero => exact ⟨rfl, Nat.zero_le 1⟩
  | succ n ih =>
    obtain ⟨hsum, hcarry⟩ := ih
    obtain ⟨d, carry, heq, hstep⟩ := simpleAdd_succ res a b n
    obtain ⟨hle, hdigit⟩ := hstep hcarry
    rw [heq]
    dsimp only
    refine ⟨?_, hle⟩
    rw [toNat_succ, toNat_succ, toNat_succ, toNat_update _ _ (Nat.le_refl n), Function.update_self]
    generalize (simpleAdd res a b n).2.toNat = before at hsum hdigit
    calc Word.toNat n (simpleAdd res a b n).1 + d.toNat * (2 ^ 32) ^ n +
          carry.toNat * (2 ^ 32) ^ (n + 1)
        = Word.toNat n (simpleAdd res a b n).1 +
          (d.toNat + carry.toNat * 2 ^ 32) * (2 ^ 32) ^ n := by ring
      _ = Word.toNat n (simpleAdd res a b n).1 + before * (2 ^ 32) ^ n +
          ((a n).toNat + (b n).toNat) * (2 ^ 32) ^ n := by rw [hdigit]; ring
      _ = Word.toNat n a + (a n).toNat * (2 ^ 32) ^ n +
          (Word.toNat n b + (b n).toNat * (2 ^ 32) ^ n) := by rw [hsum]; ring

/-- The sum modulo the base to the `n`. -/
theorem toNat_simpleAdd_mod (res a b : Word) (n : Nat) :
    Word.toNat n (simpleAdd res a b n).1 =
      (Word.toNat n a + Word.toNat n b) % (2 ^ 32) ^ n := by
  rw [← (toNat_simpleAdd res a b n).1, Nat.add_mul_mod_self_right,
    Nat.mod_eq_of_lt (toNat_lt n _)]

/-- A number that is less than twice the modulus, with the modulus taken off once. -/
theorem toNat_sub_mod (f : Field) {s : Nat} (data : Word) (hle : Word.toNat f.DIGITS f.mod ≤ s)
    (hlt : s < 2 * Word.toNat f.DIGITS f.mod)
    (h : Word.toNat f.DIGITS data = s % (2 ^ 32) ^ f.DIGITS) :
    Word.toNat f.DIGITS (simpleSub data data f.mod f.DIGITS).1 = s % Word.toNat f.DIGITS f.mod := by
  have hmod := toNat_lt f.DIGITS f.mod
  rw [Nat.mod_eq_sub_mod hle, Nat.mod_eq_of_lt (by omega)]
  apply toNat_simpleSub_mod _ _ _ _ _ (by omega)
  rw [Nat.sub_add_cancel hle, h, Nat.mod_mod]

/-- `operator+=`, for operands of which the sum is less than twice the modulus. -/
theorem addAssign_eq (f : Field) (a b : Word)
    (h : Word.toNat f.DIGITS a + Word.toNat f.DIGITS b < 2 * Word.toNat f.DIGITS f.mod) :
    Word.toNat f.DIGITS (addAssign f a b) =
      (Word.toNat f.DIGITS a + Word.toNat f.DIGITS b) % Word.toNat f.DIGITS f.mod := by
  have hmod := toNat_lt f.DIGITS f.mod
  have hlow := toNat_simpleAdd_mod a a b f.DIGITS
  obtain ⟨hsum, -⟩ := toNat_simpleAdd a a b f.DIGITS
  generalize Word.toNat f.DIGITS a + Word.toNat f.DIGITS b = s at *
  rw [addAssign]
  generalize simpleAdd a a b f.DIGITS = added at *
  obtain ⟨data, carry⟩ := added
  dsimp only at *
  by_cases hcarry : carry = 0
  · have hzero : carry.toNat = 0 := by
      rw [hcarry]
      rfl
    rw [hzero, Nat.zero_mul, Nat.add_zero] at hsum
    rw [if_neg (not_not.mpr hcarry)]
    split
    · rename_i hcmp
      rw [cmp_nonneg_iff, hsum] at hcmp
      exact toNat_sub_mod f data hcmp h hlow
    · rename_i hcmp
      rw [cmp_nonneg_iff, hsum] at hcmp
      rw [hsum, Nat.mod_eq_of_lt (by omega)]
  · have hpos : 0 < carry.toNat := by
      by_contra hzero
      exact hcarry (UInt64.toNat_inj.mp (Nat.eq_zero_of_not_pos hzero))
    have hlarge := Nat.mul_le_mul_right ((2 ^ 32) ^ f.DIGITS) hpos
    rw [Nat.succ_mul, Nat.zero_mul, Nat.zero_add] at hlarge
    have hsub := toNat_sub_mod f data (by omega) h hlow
    -- what is left is reduced, so nothing is taken off a second time
    have hsmall : s % Word.toNat f.DIGITS f.mod < Word.toNat f.DIGITS f.mod :=
      Nat.mod_lt _ (by omega)
    rw [if_pos hcarry, if_neg]
    · exact hsub
    · rw [cmp_nonneg_iff, hsub]
      omega

/-- No accumulator of the three column loops is cut off. -/
structure MulFits (f : Field) (a b : Word) : Prop where
  mult : Fits f.DIGITS a b (2 * f.DIGITS - 1)
  quotient : Fits (f.DIGITS + 1)
    (fun j => simpleMult (fun _ => 0) a b f.DIGITS (j + (f.DIGITS - 1))) f.barrett_u
    (2 * (f.DIGITS + 1) - 1)
  remainder : Fits (f.DIGITS + 1)
    (Bignum.quotient f (simpleMult (fun _ => 0) a b f.DIGITS) f.DIGITS) (paddedMod f f.DIGITS)
    (f.DIGITS + 1)

/-- Multiplication in both fields. -/
theorem mulAssign_correct {f : Field} {m : Nat}
    (hf : f = bignum16 ∧ m = 2 ^ 128 - 2 ^ 97 - 1 ∨ f = bignum17 ∧ m = 2 ^ 130 - 5) (a b : Word)
    (ha : Word.toNat f.DIGITS a < m) :
    Word.toNat f.DIGITS f.mod = m ∧ MulFits f a b ∧
    ∀ passes, 2 ≤ passes → ∃ r, mulAssign f passes a b = some r ∧
      Word.toNat f.DIGITS r = Word.toNat f.DIGITS a * Word.toNat f.DIGITS b % m := by
  have hcorrect : f.Correct m := by
    cases hf with
    | inl h => rw [h.1, h.2]; exact bignum16_correct
    | inr h => rw [h.1, h.2]; exact bignum17_correct
  have hsize := hcorrect.digits_lt
  have hfits : MulFits f a b := ⟨fits (by omega) _, fits hsize _, fits hsize _⟩
  exact ⟨hcorrect.mod_eq, hfits, fun passes hpasses => mulAssign_eq hcorrect passes hpasses a b ha⟩

/-- The modulus of the second field with another lowest digit. -/
def nearModulus (low : Digit) : Word := fun i => if i = 0 then low else bignum17.mod i

/-- The product of minus one and minus two. -/
theorem mulAssign_correct_large :
    Word.toNat 5 bignum17.mod = 2 ^ 130 - 5 ∧
    MulFits bignum17 (nearModulus 0xfffffffa) (nearModulus 0xfffffff9) ∧
    ∀ passes, 2 ≤ passes →
      ∃ r, mulAssign bignum17 passes (nearModulus 0xfffffffa) (nearModulus 0xfffffff9) = some r ∧
        Word.toNat 5 r = Word.toNat 5 (nearModulus 0xfffffffa) *
          Word.toNat 5 (nearModulus 0xfffffff9) % (2 ^ 130 - 5) :=
  mulAssign_correct (Or.inr ⟨rfl, rfl⟩) (nearModulus 0xfffffffa) (nearModulus 0xfffffff9)
    (by decide)

end Bignum

end Epos
