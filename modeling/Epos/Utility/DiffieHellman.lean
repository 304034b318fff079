import Epos.Utility.Bignum
import Mathlib.Algebra.Field.Defs
import Mathlib.Algebra.GroupWithZero.Units.Basic

/-!
# Elliptic-curve Diffie-Hellman

`Diffie_Hellman` and its `Elliptic_Curve_Point` of `utility/diffie_hellman.h`. Scalars are
big numbers, read digit by digit. The coordinates are elements of the field that `Bignum`
implements; for the multiplication `jacobian_double` and `add_jacobian_affine` are parameters.
-/

namespace Epos

namespace DiffieHellman

open Bignum (Digit Word)

/-- `Elliptic_Curve_Point`. -/
@[ext] structure Point (F : Type) where
  x : F
  y : F
  z : F

/-- The private operations of `Elliptic_Curve_Point`. -/
structure Operations (F : Type) where
  jacobian_double : Point F → Point F
  add_jacobian_affine : Point F → Point F → Point F

/-! ## The bits of a scalar -/

/-- `b_len`: leading zeros are left out, down to one digit. -/
def bLen (b : Word) : Nat → Nat
  | 0 => 0
  | 1 => 1
  | len + 2 => if b (len + 1) = 0 then bLen b (len + 1) else len + 2

/-- `bin`: the binary representation of a digit, of which the last entry is the lowest bit. -/
abbrev Bits := Nat → Bool

/-- The loop that reads `bin` from `now`, from an index down. -/
def readBits (bin : Bits) : Nat → Digit → Bits
  | 0, _ => bin
  | j + 1, now => readBits (Function.update bin j (now % 2 ≠ 0)) j (now / 2)

/-- The first such loop, which also leaves behind the highest `1` bit of `now`. -/
def readLeadingBits (bin : Bits) (current_bit : Nat) : Nat → Digit → Bits × Nat
  | 0, _ => (bin, current_bit)
  | i + 1, now =>
    let current_bit := if now % 2 ≠ 0 then i + 1 else current_bit
    readLeadingBits (Function.update bin i (now % 2 ≠ 0)) current_bit i (now / 2)

/-! ## Multiplication by a scalar -/

variable {F : Type} (ops : Operations F)

/-- The loop over the last `left` entries of `bin`. -/
def scanBits (pp : Point F) (bin : Bits) : Nat → Point F → Point F
  | 0, p => p
  | left + 1, p =>
    let p := ops.jacobian_double p
    let p := if bin (32 - (left + 1)) then ops.add_jacobian_affine p pp else p
    scanBits pp bin left p

/-- The loop over the digits, from the pass for the digit `i` on. -/
def scanDigits (pp : Point F) (b : Word) : Nat → Bits → Nat → Point F → Point F
  | 0, bin, current_bit, p => scanBits ops pp bin (32 - current_bit) p
  | i + 1, bin, current_bit, p =>
    let p := scanBits ops pp bin (32 - current_bit) p
    scanDigits pp b i (readBits bin 32 (b i)) 0 p

/-- The point behind the loops, for a scalar with a digit that is not zero. `bin` is written
    before it is read. -/
def scan (b_len : Nat) (p : Point F) (b : Word) : Point F :=
  let (bin, current_bit) := readLeadingBits (fun _ => false) 32 32 (b (b_len - 1))
  scanDigits ops p b (b_len - 1) bin current_bit p

variable [Field F]

/-- What is left of `operator*=` then. -/
def toAffine (p : Point F) : Point F :=
  let z := p.z⁻¹
  let Z := z
  let Z := Z * z
  let x := p.x * Z
  let Z := Z * z
  { x, y := p.y * Z, z := 1 }

/-- `operator*=(b)`, for coordinates of `DIGITS` digits. -/
def mulAssign (DIGITS : Nat) (p : Point F) (b : Word) : Point F :=
  let b_len := bLen b DIGITS
  if b_len = 0 ∨ b (b_len - 1) = 0 then { x := 0, y := 0, z := 0 }
  else toAffine (scan ops b_len p b)

/-! ## The operations on points

Each line of the source changes one coordinate in place. -/

def jacobian_double (p : Point F) : Point F :=
  let x := p.x
  let y := p.y
  let z := p.z
  let C := x
  let aux := z
  -- `C` becomes three times the product of `x - z²` and `x + z²`
  let aux := aux * z; let C := C - aux
  let aux := aux + x; let C := C * aux
  let C := C * 3
  let z := z * y; let z := z * 2
  -- `B` becomes `8 y⁴`
  let y := y * y; let B := y
  let y := y * x; let y := y * 4
  let B := B * B; let B := B * 8
  -- `x` becomes `C² - 2 y`, where `y` is now `4 x y²`
  let x := C; let x := x * x
  let aux := y; let aux := aux * 2
  let x := x - aux
  let y := y - x; let y := y * C
  let y := y - B
  { x, y, z }

/-- `add_jacobian_affine(b)`. -/
def add_jacobian_affine (p b : Point F) : Point F :=
  -- `A` becomes `b.x z²` and `B` becomes `b.y z³`
  let A := p.z
  let A := A * p.z
  let B := A
  let A := A * b.x
  let B := B * p.z; let B := B * b.y
  -- the differences, `C` of the first and `B` of the second coordinate
  let C := A; let C := C - p.x
  let B := B - p.y
  let X := B; let X := X * B
  let aux := C; let aux := aux * C
  let Y := aux
  let aux2 := aux; let aux := aux * C
  let aux2 := aux2 * 2; let aux2 := aux2 * p.x
  let aux := aux + aux2; let X := X - aux
  let aux := Y; let Y := Y * p.x
  let Y := Y - X; let Y := Y * B
  let aux := aux * p.y; let aux := aux * C
  let Y := Y - aux
  let z := p.z * C
  { x := X, y := Y, z }

/-- The operations that the class has. -/
def operations (F : Type) [Field F] : Operations F := { jacobian_double, add_jacobian_affine }

/-! ## Key agreement -/

/-- `Diffie_Hellman`: `_private`, `_base_point` and `_public`. -/
structure Party (F : Type) where
  privateKey : Word
  base_point : Point F
  publicKey : Point F

/-- `generate_keypair()`, with the number that `randomize` comes up with. -/
def generateKeypair (DIGITS : Nat) (base_point : Point F) (privateKey : Word) : Party F :=
  { privateKey, base_point, publicKey := mulAssign ops DIGITS base_point privateKey }

/-- The point that `shared_key(public_key)` computes. -/
def sharedPoint (DIGITS : Nat) (party : Party F) (public_key : Point F) : Point F :=
  mulAssign ops DIGITS public_key party.privateKey

/-- `shared_key(public_key)`, where `xor` is `operator^=` of the coordinates. -/
def sharedKey (xor : F → F → F) (DIGITS : Nat) (party : Party F) (public_key : Point F) : F :=
  let public_key := sharedPoint ops DIGITS party public_key
  xor public_key.x public_key.y

end DiffieHellman

end Epos
