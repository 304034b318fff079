import Mathlib.Data.Nat.Digits.Lemmas

/-!
# Leading digits

The digit of a number that stands in front, how many of its digits are not zero, and what is left
of it after a division by a power of the base. Nothing here mentions priorities.
-/

namespace Nat

variable {b n e : Nat}

/-- How many digits of `n` are not zero. -/
def nonzeroDigits (b n : Nat) : Nat := (digits b n).countP (· ≠ 0)

/-- The first digit of `n`. -/
def leadingDigit (b n : Nat) : Nat := n / b ^ ((digits b n).length - 1)

theorem nonzeroDigits_zero (b : Nat) : nonzeroDigits b 0 = 0 := by
  simp [nonzeroDigits]

theorem nonzeroDigits_pos_iff : 0 < nonzeroDigits b n ↔ n ≠ 0 := by
  constructor
  · rintro h rfl
    rw [nonzeroDigits_zero] at h
    exact Nat.lt_irrefl 0 h
  · intro hn
    rw [nonzeroDigits, List.countP_pos_iff]
    have hne : digits b n ≠ [] := digits_ne_nil_iff_ne_zero.mpr hn
    exact ⟨_, List.getLast_mem hne, by simpa using getLast_digit_ne_zero b hn⟩

theorem length_digits_div (hb : 1 < b) (hn : n ≠ 0) :
    (digits b n).length = (digits b (n / b)).length + 1 := by
  rw [digits_eq_cons_digits_div hb hn, List.length_cons]

theorem nonzeroDigits_div (hb : 1 < b) (hn : n ≠ 0) :
    nonzeroDigits b n = nonzeroDigits b (n / b) + if n % b ≠ 0 then 1 else 0 := by
  simp [nonzeroDigits, digits_eq_cons_digits_div hb hn, List.countP_cons]

theorem length_digits_pos (hn : n ≠ 0) : 0 < (digits b n).length :=
  List.length_pos_of_ne_nil (digits_ne_nil_iff_ne_zero.mpr hn)

theorem nonzeroDigits_le_length (b n : Nat) : nonzeroDigits b n ≤ (digits b n).length :=
  List.countP_le_length

theorem leadingDigit_lt (hb : 1 < b) (n : Nat) : leadingDigit b n < b := by
  by_cases hn : n = 0
  · rw [leadingDigit, hn, Nat.zero_div]
    exact Nat.zero_lt_of_lt hb
  · refine Nat.div_lt_of_lt_mul ?_
    rw [← Nat.pow_succ, Nat.succ_eq_add_one, Nat.sub_add_cancel (length_digits_pos hn)]
    exact lt_base_pow_length_digits hb

theorem leadingDigit_pos (hb : 1 < b) (hn : n ≠ 0) : 0 < leadingDigit b n := by
  have hpow := base_pow_length_digits_le b n hb hn
  refine Nat.div_pos ?_ (Nat.pow_pos (Nat.zero_lt_of_lt hb))
  rw [← Nat.sub_add_cancel (length_digits_pos (b := b) hn), Nat.pow_succ, Nat.mul_comm] at hpow
  exact Nat.le_of_mul_le_mul_left hpow (Nat.zero_lt_of_lt hb)

/-- A number with a single digit that is not zero is that digit and zeros behind it. -/
theorem eq_leadingDigit_mul (hb : 1 < b) (h : nonzeroDigits b n = 1) :
    n = leadingDigit b n * b ^ ((digits b n).length - 1) := by
  induction n using Nat.strong_induction_on with
  | h n ih =>
    have hn : n ≠ 0 := nonzeroDigits_pos_iff.mp (h ▸ Nat.one_pos)
    have hlength := length_digits_div hb hn
    have hcount := nonzeroDigits_div hb hn
    by_cases hq : n / b = 0
    · -- a single digit
      rw [hq, digits_zero, List.length_nil] at hlength
      rw [leadingDigit, hlength, Nat.zero_add, Nat.sub_self, Nat.pow_zero, Nat.div_one, Nat.mul_one]
    · have hpos : 0 < nonzeroDigits b (n / b) := nonzeroDigits_pos_iff.mpr hq
      have hrem : n % b = 0 := by
        by_contra hr
        rw [if_pos hr] at hcount
        omega
      rw [if_neg (not_not.mpr hrem)] at hcount
      have hdiv := ih (n / b) (Nat.div_lt_self (Nat.pos_of_ne_zero hn) hb) (by omega)
      have hsucc := Nat.sub_add_cancel (length_digits_pos (b := b) hq)
      have hlead : leadingDigit b n = leadingDigit b (n / b) := by
        rw [leadingDigit, leadingDigit, hlength, Nat.add_sub_cancel, ← hsucc, Nat.pow_succ,
          Nat.mul_comm, ← Nat.div_div_eq_div_mul, Nat.add_sub_cancel]
      have hback : n = n / b * b := (Nat.div_mul_cancel (Nat.dvd_of_mod_eq_zero hrem)).symm
      calc n = n / b * b := hback
        _ = leadingDigit b (n / b) * b ^ ((digits b (n / b)).length - 1) * b := by rw [← hdiv]
        _ = leadingDigit b n * b ^ ((digits b n).length - 1) := by
          rw [Nat.mul_assoc, ← Nat.pow_succ, Nat.succ_eq_add_one, hsucc, hlead, hlength,
            Nat.add_sub_cancel]

/-- A power with as many zeros as the number has digits leaves nothing. -/
theorem div_pow_eq_zero (hb : 1 < b) (he : (digits b n).length ≤ e) : n / b ^ e = 0 := by
  refine Nat.div_eq_of_lt (Nat.lt_of_lt_of_le (lt_base_pow_length_digits hb) ?_)
  exact Nat.pow_le_pow_right (Nat.zero_lt_of_lt hb) he

/-- All but the first two digits are taken off a number with one digit that is not zero. -/
theorem div_pow_of_nonzeroDigits_one (hb : 1 < b) (h : nonzeroDigits b n = 1)
    (hlength : 2 ≤ (digits b n).length) :
    n / b ^ ((digits b n).length - 2) = b * leadingDigit b n := by
  have hn := eq_leadingDigit_mul hb h
  have hexp : (digits b n).length - 1 = ((digits b n).length - 2) + 1 := by omega
  rw [hexp, Nat.pow_succ] at hn
  have hpos : 0 < b ^ ((digits b n).length - 2) := Nat.pow_pos (Nat.zero_lt_of_lt hb)
  have hprod : leadingDigit b n * (b ^ ((digits b n).length - 2) * b) =
      b * leadingDigit b n * b ^ ((digits b n).length - 2) := by
    rw [Nat.mul_comm _ b, ← Nat.mul_assoc, Nat.mul_comm _ b]
  exact Nat.div_eq_of_eq_mul_left hpos (hn.trans hprod)

end Nat
