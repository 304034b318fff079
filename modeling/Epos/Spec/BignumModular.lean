import Epos.Spec.BignumCorrect

/-!
# Addition and subtraction of big numbers

A sum may be too large for the digits, which `simple_add` tells by its carry, or only for the
modulus, which `cmp` tells: either way the modulus is taken off once. Both operators read a digit
before they write it, so operands that are the same object are no different from equal ones.
-/

namespace Epos

namespace Bignum

/-! ## Subtraction -/

/-- The difference, without the modulus where it is not needed. -/
theorem toNat_subAssign (f : Field) (a b : Word)
    (h : Word.toNat f.DIGITS b ≤ Word.toNat f.DIGITS a + Word.toNat f.DIGITS f.mod) :
    Word.toNat f.DIGITS (subAssign f a b) =
      if Word.toNat f.DIGITS b ≤ Word.toNat f.DIGITS a then
        Word.toNat f.DIGITS a - Word.toNat f.DIGITS b
      else Word.toNat f.DIGITS a + Word.toNat f.DIGITS f.mod - Word.toNat f.DIGITS b := by
  have hmod := toNat_lt f.DIGITS f.mod
  have hb := toNat_lt f.DIGITS b
  obtain ⟨hsum, hone⟩ := toNat_simpleSub a a b f.DIGITS
  rw [subAssign]
  generalize simpleSub a a b f.DIGITS = subtracted at *
  obtain ⟨data, borrow⟩ := subtracted
  dsimp only at *
  have hdata := toNat_lt f.DIGITS data
  by_cases hborrow : borrow = 0
  · have hzero : borrow.toNat = 0 := by
      rw [hborrow]
      rfl
    rw [hzero, Nat.zero_mul, Nat.add_zero] at hsum
    rw [if_neg (not_not.mpr hborrow), if_pos (by omega)]
    omega
  · have hpos : borrow.toNat = 1 := by
      have hne : borrow.toNat ≠ 0 := fun hzero => hborrow (UInt64.toNat_inj.mp hzero)
      omega
    rw [hpos, Nat.one_mul] at hsum
    -- the borrow is worth the base to the number of digits, which the sum with the modulus loses
    rw [if_pos hborrow, if_neg (by omega), toNat_simpleAdd_mod]
    have hsplit : Word.toNat f.DIGITS data + Word.toNat f.DIGITS f.mod =
        Word.toNat f.DIGITS a + Word.toNat f.DIGITS f.mod - Word.toNat f.DIGITS b +
          (2 ^ 32) ^ f.DIGITS := by
      omega
    rw [hsplit, Nat.add_mod_right, Nat.mod_eq_of_lt (by omega)]

/-- `operator-=`, for operands smaller than the modulus. -/
theorem subAssign_eq (f : Field) (a b : Word)
    (ha : Word.toNat f.DIGITS a < Word.toNat f.DIGITS f.mod)
    (hb : Word.toNat f.DIGITS b < Word.toNat f.DIGITS f.mod) :
    (Word.toNat f.DIGITS (subAssign f a b) : Int) =
      (Word.toNat f.DIGITS a - Word.toNat f.DIGITS b) % Word.toNat f.DIGITS f.mod := by
  rw [toNat_subAssign f a b (by omega)]
  split
  · rw [Int.emod_eq_of_lt] <;> omega
  · rw [← Int.add_emod_right, Int.emod_eq_of_lt] <;> omega

/-! ## The same object -/

namespace Memory

variable {Obj : Type} [DecidableEq Obj] (mem : Memory Obj) (res a b : Obj)

theorem simpleAdd_of_le (r x y : Word) (n t : Nat) (h : n ≤ t) :
    (Bignum.simpleAdd r x y n).1 t = r t := by
  induction n with
  | zero => rfl
  | succ n ih =>
    obtain ⟨d, carry, heq, -⟩ := simpleAdd_succ r x y n
    rw [heq]
    exact (Function.update_of_ne (by omega) _ _).trans (ih (by omega))

/-- A digit that has not been written yet is still the one there was, in every object. -/
theorem read_update (w : Word) (i : Nat) (h : w i = mem res i) (o : Obj) :
    Function.update mem res w o i = mem o i := by
  by_cases ho : o = res
  · rw [ho, Function.update_self, h]
  · rw [Function.update_of_ne ho]

theorem store_update (w : Word) (i : Nat) (d : Digit) :
    store (Function.update mem res w) res i d =
      Function.update mem res (Function.update w i d) := by
  rw [store, Function.update_self, Function.update_idem]

/-- In place, `simple_sub` leaves what it computes of the operands as they were. -/
theorem simpleSub_eq (n : Nat) :
    mem.simpleSub res a b n =
      (Function.update mem res (Bignum.simpleSub (mem res) (mem a) (mem b) n).1,
        (Bignum.simpleSub (mem res) (mem a) (mem b) n).2) := by
  induction n with
  | zero => simp [simpleSub, Bignum.simpleSub]
  | succ n ih =>
    have hkeep := simpleSub_of_le (mem res) (mem a) (mem b) n n (Nat.le_refl n)
    rw [simpleSub, ih, Bignum.simpleSub]
    simp only [read_update mem res _ n hkeep, store_update]
    split <;> rfl

/-- In place, `simple_add` leaves what it computes of the operands as they were. -/
theorem simpleAdd_eq (n : Nat) :
    mem.simpleAdd res a b n =
      (Function.update mem res (Bignum.simpleAdd (mem res) (mem a) (mem b) n).1,
        (Bignum.simpleAdd (mem res) (mem a) (mem b) n).2) := by
  induction n with
  | zero => simp [simpleAdd, Bignum.simpleAdd]
  | succ n ih =>
    have hkeep := simpleAdd_of_le (mem res) (mem a) (mem b) n n (Nat.le_refl n)
    rw [simpleAdd, ih, Bignum.simpleAdd]
    simp only [read_update mem res _ n hkeep, store_update]

variable {mem} {f : Field} {mod this : Obj} {b : Obj}

/-- `operator+=` of an object writes the sum there and nothing elsewhere. -/
theorem addAssign_eq (hmod : mem mod = f.mod) (hthis : this ≠ mod) :
    mem.addAssign f.DIGITS mod this b =
      Function.update mem this (Bignum.addAssign f (mem this) (mem b)) := by
  have hread : ∀ w, Function.update mem this w mod = f.mod := by
    intro w
    rw [Function.update_of_ne hthis.symm, hmod]
  rw [addAssign, Bignum.addAssign, simpleAdd_eq]
  generalize Bignum.simpleAdd (mem this) (mem this) (mem b) f.DIGITS = added
  obtain ⟨data, carry⟩ := added
  simp only [simpleSub_eq, hread, Function.update_self, Function.update_idem]
  by_cases hcarry : carry = 0
  · simp only [hcarry, ne_eq, not_true, if_false, hread, Function.update_self]
    split
    · rw [Function.update_idem]
    · rfl
  · simp only [hcarry, ne_eq, not_false_iff, if_true, hread, Function.update_self]
    split
    · rw [Function.update_idem]
    · rfl

/-- `operator-=` of an object writes the difference there and nothing elsewhere. -/
theorem subAssign_eq (hmod : mem mod = f.mod) (hthis : this ≠ mod) :
    mem.subAssign f.DIGITS mod this b =
      Function.update mem this (Bignum.subAssign f (mem this) (mem b)) := by
  have hread : ∀ w, Function.update mem this w mod = f.mod := by
    intro w
    rw [Function.update_of_ne hthis.symm, hmod]
  rw [subAssign, Bignum.subAssign, simpleSub_eq]
  generalize Bignum.simpleSub (mem this) (mem this) (mem b) f.DIGITS = subtracted
  obtain ⟨data, borrow⟩ := subtracted
  simp only [simpleAdd_eq, hread, Function.update_self, Function.update_idem]
  split <;> rfl

/-- Addition and subtraction in both fields, for operands that may be the same object: what is
    left is the sum or the difference modulo `_mod`, it is smaller than `_mod`, and no other object
    is changed. -/
theorem add_sub_correct {f : Field} {m : Nat}
    (hf : f = bignum16 ∧ m = 2 ^ 128 - 2 ^ 97 - 1 ∨ f = bignum17 ∧ m = 2 ^ 130 - 5)
    (mem : Memory Obj) (mod this b : Obj) (hmod : mem mod = f.mod)
    (ha : Word.toNat f.DIGITS (mem this) < m) (hb : Word.toNat f.DIGITS (mem b) < m) :
    Word.toNat f.DIGITS (mem.addAssign f.DIGITS mod this b this) =
        (Word.toNat f.DIGITS (mem this) + Word.toNat f.DIGITS (mem b)) % m ∧
      Word.toNat f.DIGITS (mem.addAssign f.DIGITS mod this b this) < m ∧
      (∀ o, o ≠ this → mem.addAssign f.DIGITS mod this b o = mem o) ∧
    (Word.toNat f.DIGITS (mem.subAssign f.DIGITS mod this b this) : Int) =
        (Word.toNat f.DIGITS (mem this) - Word.toNat f.DIGITS (mem b)) % m ∧
      Word.toNat f.DIGITS (mem.subAssign f.DIGITS mod this b this) < m ∧
      (∀ o, o ≠ this → mem.subAssign f.DIGITS mod this b o = mem o) := by
  have hcorrect : f.Correct m := by
    cases hf with
    | inl h => rw [h.1, h.2]; exact bignum16_correct
    | inr h => rw [h.1, h.2]; exact bignum17_correct
  have hm := hcorrect.mod_eq
  -- a number smaller than the modulus is not the modulus itself
  have hthis : this ≠ mod := by
    intro heq
    rw [heq, hmod, hm] at ha
    exact Nat.lt_irrefl m ha
  have hadd := Bignum.addAssign_eq f (mem this) (mem b) (by omega)
  have hsub := Bignum.subAssign_eq f (mem this) (mem b) (by omega) (by omega)
  have hmpos : 0 < m := by omega
  rw [hm] at hadd hsub
  rw [addAssign_eq hmod hthis, subAssign_eq hmod hthis, Function.update_self, Function.update_self]
  refine ⟨hadd, ?_, ?_, hsub, ?_, ?_⟩
  · rw [hadd]
    exact Nat.mod_lt _ hmpos
  · intro o ho
    exact Function.update_of_ne ho _ _
  · have hlt := Int.emod_lt_of_pos
      (Word.toNat f.DIGITS (mem this) - Word.toNat f.DIGITS (mem b) : Int) (by omega : (0 : Int) < m)
    omega
  · intro o ho
    exact Function.update_of_ne ho _ _

/-- The largest number of the 128-bit field in one object, and `_mod` in another. -/
def largest : Memory Bool
  | true => fun i => if i = 0 then 0xfffffffe else bignum16.mod i
  | false => bignum16.mod

/-- Twice the largest number does not fit into the digits; both operands are one object. -/
theorem add_sub_correct_example :
    Word.toNat 4 (largest.addAssign 4 false true true true) = 2 ^ 128 - 2 ^ 97 - 3 ∧
    Word.toNat 4 (largest.subAssign 4 false true true true) = 0 := by
  obtain ⟨hadd, -, -, hsub, -, -⟩ := add_sub_correct (f := bignum16) (Or.inl ⟨rfl, rfl⟩) largest
    false true true rfl (by decide) (by decide)
  have hvalue : Word.toNat 4 (largest true) = 2 ^ 128 - 2 ^ 97 - 2 := by decide
  have hdigits : bignum16.DIGITS = 4 := rfl
  rw [hdigits, hvalue] at hadd hsub
  refine ⟨hadd, ?_⟩
  rw [Int.sub_self] at hsub
  exact Int.ofNat_inj.mp hsub

end Memory

end Bignum

end Epos
