import Mathlib.Logic.Function.Basic

/-!
# Big numbers

`Bignum<SIZE>` of `utility/bignum.h`: numbers between 0 and a prime modulus, as 32-bit
digits of which the lowest is the first. Sums and products of digits are taken in 64 bits.
Arrays are given as what stands from an address on; local ones are written before they are
read.
-/

namespace Epos

namespace Bignum

abbrev Digit := UInt32

abbrev DoubleDigit := UInt64

/-- The digits from an address on. -/
abbrev Word := Nat → Digit

/-- `BITS_PER_DIGIT`. -/
def BITS_PER_DIGIT : UInt64 := 32

/-- The unions `_Word` and `_Barrett`, initialized with `bytes`. The last digit of a
    `_Barrett` is behind the end of its `data`. -/
def ofBytes (bytes : List UInt8) : Word := fun i =>
  (bytes.getD (4 * i) 0).toUInt32 + (bytes.getD (4 * i + 1) 0).toUInt32 <<< 8 +
    (bytes.getD (4 * i + 2) 0).toUInt32 <<< 16 + (bytes.getD (4 * i + 3) 0).toUInt32 <<< 24

/-- `DIGITS`, `_mod` and `_barrett_u` of a `Bignum<SIZE>`. -/
structure Field where
  DIGITS : Nat
  mod : Word
  barrett_u : Word

/-- `(SIZE + sizeof(Digit) - 1) / sizeof(Digit)`. -/
def digits (SIZE : Nat) : Nat := (SIZE + 4 - 1) / 4

/-- `Bignum<16>`. -/
def bignum16 : Field where
  DIGITS := digits 16
  mod := ofBytes
    [0xff, 0xff, 0xff, 0xff,
     0xff, 0xff, 0xff, 0xff,
     0xff, 0xff, 0xff, 0xff,
     0xfd, 0xff, 0xff, 0xff]
  barrett_u := ofBytes
    [17, 0, 0, 0,
     8, 0, 0, 0,
     4, 0, 0, 0,
     2, 0, 0, 0,
     1, 0, 0, 0]

/-- `Bignum<17>`. -/
def bignum17 : Field where
  DIGITS := digits 17
  mod := ofBytes
    [0xfb, 0xff, 0xff, 0xff,
     0xff, 0xff, 0xff, 0xff,
     0xff, 0xff, 0xff, 0xff,
     0xff, 0xff, 0xff, 0xff,
     0x03, 0x00, 0x00, 0x00]
  barrett_u := ofBytes
    [0x00, 0x00, 0x00, 0x00,
     0x00, 0x00, 0x00, 0x50,
     0x00, 0x00, 0x00, 0x00,
     0x00, 0x00, 0x00, 0x00,
     0x00, 0x00, 0x00, 0x00,
     0x00, 0x00, 0x00, 0x40]

/-! ## Comparison, addition and subtraction -/

/-- `operator=(n)`. -/
def ofNat (n : Digit) : Word := fun i => if i = 0 then n else 0

/-- `cmp(a, b, size)`. -/
def cmp (a b : Word) : Nat → Int
  | 0 => 0
  | i + 1 => if b i < a i then 1 else if a i < b i then -1 else cmp a b i

/-- `simple_sub(res, a, b, size)`, with the borrow that it returns. -/
def simpleSub (res a b : Word) : Nat → Word × DoubleDigit
  | 0 => (res, 0)
  | i + 1 =>
    let (res, borrow) := simpleSub res a b i
    let aux : DoubleDigit := 1 <<< BITS_PER_DIGIT
    let anow := (a i).toUInt64
    let bnow := (b i).toUInt64 + borrow
    if anow < bnow then (Function.update res i ((aux - bnow) + anow).toUInt32, 1)
    else (Function.update res i (anow - bnow).toUInt32, 0)

/-- `simple_add(res, a, b, size)`, with the carry that it returns. -/
def simpleAdd (res a b : Word) : Nat → Word × DoubleDigit
  | 0 => (res, 0)
  | i + 1 =>
    let (res, carry) := simpleAdd res a b i
    let tmp := carry + (a i).toUInt64 + (b i).toUInt64
    (Function.update res i tmp.toUInt32, if tmp >>> BITS_PER_DIGIT ≠ 0 then 1 else 0)

/-! ## Multiplication -/

/-- The accumulators `r0`, `r1` and `r2`. -/
structure Acc where
  r0 : DoubleDigit := 0
  r1 : DoubleDigit := 0
  r2 : DoubleDigit := 0

namespace Acc

/-- The body of the inner loop. -/
def add (acc : Acc) (aj bk : Digit) : Acc :=
  let prod := aj.toUInt64 * bk.toUInt64
  let r0 := acc.r0 + prod.toUInt32.toUInt64
  let r1 := acc.r1 + ((prod >>> BITS_PER_DIGIT) + (r0 >>> BITS_PER_DIGIT))
  { r0 := r0.toUInt32.toUInt64
    r1 := r1.toUInt32.toUInt64
    r2 := acc.r2 + (r1 >>> BITS_PER_DIGIT) }

/-- `r0 = r1; r1 = r2; r2 = 0;`. -/
def shift (acc : Acc) : Acc := { r0 := acc.r1, r1 := acc.r2 }

end Acc

/-- The inner loop for the column `i` after some passes. -/
def column (size : Nat) (a b : Word) (i : Nat) (acc : Acc) : Nat → Acc
  | 0 => acc
  | j + 1 =>
    let acc := column size a b i acc j
    if i - j < size then acc.add (a j) (b (i - j)) else acc

/-- The outer loop after some passes; the digit of the column `i` is stored at `i - off`.
    The inner loop ends at `(j < size) && (j <= i)`. -/
def columns (size off : Nat) (a b res : Word) : Nat → Word × Acc
  | 0 => (res, {})
  | i + 1 =>
    let (res, acc) := columns size off a b res i
    let acc := column size a b i acc (min size (i + 1))
    (if off ≤ i then Function.update res (i - off) acc.r0.toUInt32 else res, acc.shift)

/-- All columns, and the last `r0` behind them. -/
def product (size off : Nat) (a b res : Word) : Word :=
  let (res, acc) := columns size off a b res (2 * size - 1)
  Function.update res (2 * size - 1 - off) acc.r0.toUInt32

/-- `simple_mult(res, a, b, size)`. -/
def simpleMult (res a b : Word) (size : Nat) : Word := product size 0 a b res

/-! ## Reduction -/

variable (f : Field)

/-- The `while` loop at the end of `barrett_reduction`, `none` if more passes are needed. -/
def correct (size : Nat) : Nat → Word → Option Word
  | passes, r =>
    if 0 < r size ∨ 0 ≤ cmp r f.mod size then
      match passes with
      | 0 => none
      | passes + 1 =>
        let (r, borrow) := simpleSub r r f.mod size
        correct size passes (if borrow ≠ 0 then Function.update r size (r size - 1) else r)
    else some r

/-- `barrett_reduction(res, a, size)`. -/
def barrettReduction (passes : Nat) (res a : Word) (size : Nat) : Option Word :=
  let q := product (size + 1) (size + 1) (fun j => a (j + (size - 1))) f.barrett_u fun _ => 0
  let r := (columns (size + 1) 0 q (fun k => if k = size then 0 else f.mod k) (fun _ => 0)
    (size + 1)).1
  let r := (simpleSub r a r (size + 1)).1
  (correct f size passes r).map fun r i => if i < size then r i else res i

/-! ## Operators -/

/-- `operator*=(b)`. -/
def mulAssign (passes : Nat) (data b : Word) : Option Word :=
  if cmp b (ofNat 1) f.DIGITS = 0 then some data
  else
    let multResult := simpleMult (fun _ => 0) data b f.DIGITS
    barrettReduction f passes data multResult f.DIGITS

/-- `operator+=(b)`. -/
def addAssign (data b : Word) : Word :=
  let (data, carry) := simpleAdd data data b f.DIGITS
  let data := if carry ≠ 0 then (simpleSub data data f.mod f.DIGITS).1 else data
  if 0 ≤ cmp data f.mod f.DIGITS then (simpleSub data data f.mod f.DIGITS).1 else data

/-- `operator-=(b)`. -/
def subAssign (data b : Word) : Word :=
  let (data, borrow) := simpleSub data data b f.DIGITS
  if borrow ≠ 0 then (simpleAdd data data f.mod f.DIGITS).1 else data

/-! ## Inversion -/

/-- `is_even()`. -/
def isEven (data : Word) : Bool := data 0 % 2 = 0

/-- `divide_by_two(carry)` from the digit below an index down, with the carry that it returns. -/
def divideByTwo : Nat → Word → Bool → Word × Bool
  | 0, data, carry => (data, carry)
  | i + 1, data, carry =>
    let next_carry := data i % 2 ≠ 0
    divideByTwo i
      (Function.update data i (data i >>> 1 + (if carry then 1 else 0 : Digit) <<< 31)) next_carry

/-- Half of a number modulo `_mod`, which is added to an odd one before. -/
def halveMod (A : Word) : Word :=
  if isEven A then (divideByTwo f.DIGITS A false).1
  else
    let (A, carry) := simpleAdd A A f.mod f.DIGITS
    (divideByTwo f.DIGITS A (carry ≠ 0)).1

/-- The loop `while(u.is_even())`, `none` if more passes are needed. -/
def halve : Nat → Word → Word → Option (Word × Word)
  | passes, u, A =>
    if isEven u then
      match passes with
      | 0 => none
      | passes + 1 => halve passes (divideByTwo f.DIGITS u false).1 (halveMod f A)
    else some (u, A)

/-- The loop `while(u != zero)` of `invert`, `none` if more passes are needed. -/
def invertLoop (passes : Nat) : Nat → (u A v data : Word) → Option Word
  | rounds, u, A, v, data =>
    if cmp u (ofNat 0) f.DIGITS ≠ 0 then
      match rounds with
      | 0 => none
      | rounds + 1 => do
        let (u, A) ← halve f passes u A
        let (v, data) ← halve f passes v data
        -- both are odd here, so the difference is halved in the next pass
        if 0 ≤ cmp u v f.DIGITS then
          invertLoop passes rounds (subAssign f u v) (subAssign f A data) v data
        else invertLoop passes rounds u A (subAssign f v u) (subAssign f data A)
    else some data

/-- `invert()`. -/
def invert (passes rounds : Nat) (data : Word) : Option Word :=
  invertLoop f passes rounds (fun i => if i < f.DIGITS then data i else 0) (ofNat 1)
    (fun i => if i < f.DIGITS then f.mod i else 0) (ofNat 0)

/-! ## Operands that may be the same object -/

/-- The digits of each object. -/
abbrev Memory (Obj : Type) := Obj → Word

namespace Memory

variable {Obj : Type} [DecidableEq Obj]

/-- `o._data[i] = d`. -/
def store (mem : Memory Obj) (o : Obj) (i : Nat) (d : Digit) : Memory Obj :=
  Function.update mem o (Function.update (mem o) i d)

/-- `simple_sub(res, a, b, size)` in place. -/
def simpleSub (mem : Memory Obj) (res a b : Obj) : Nat → Memory Obj × DoubleDigit
  | 0 => (mem, 0)
  | i + 1 =>
    let (mem, borrow) := simpleSub mem res a b i
    let aux : DoubleDigit := 1 <<< BITS_PER_DIGIT
    let anow := (mem a i).toUInt64
    let bnow := (mem b i).toUInt64 + borrow
    if anow < bnow then (mem.store res i ((aux - bnow) + anow).toUInt32, 1)
    else (mem.store res i (anow - bnow).toUInt32, 0)

/-- `simple_add(res, a, b, size)` in place. -/
def simpleAdd (mem : Memory Obj) (res a b : Obj) : Nat → Memory Obj × DoubleDigit
  | 0 => (mem, 0)
  | i + 1 =>
    let (mem, carry) := simpleAdd mem res a b i
    let tmp := carry + (mem a i).toUInt64 + (mem b i).toUInt64
    (mem.store res i tmp.toUInt32, if tmp >>> BITS_PER_DIGIT ≠ 0 then 1 else 0)

/-- `operator+=(b)` of an object, where `_mod` is an object too. -/
def addAssign (mem : Memory Obj) (DIGITS : Nat) (mod this b : Obj) : Memory Obj :=
  let (mem, carry) := mem.simpleAdd this this b DIGITS
  let mem := if carry ≠ 0 then (mem.simpleSub this this mod DIGITS).1 else mem
  if 0 ≤ cmp (mem this) (mem mod) DIGITS then (mem.simpleSub this this mod DIGITS).1 else mem

/-- `operator-=(b)` of an object. -/
def subAssign (mem : Memory Obj) (DIGITS : Nat) (mod this b : Obj) : Memory Obj :=
  let (mem, borrow) := mem.simpleSub this this b DIGITS
  if borrow ≠ 0 then (mem.simpleAdd this this mod DIGITS).1 else mem

end Memory

end Bignum

end Epos
