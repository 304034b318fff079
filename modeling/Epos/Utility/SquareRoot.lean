import Epos.Utility.Geometry
import Mathlib.Algebra.Group.Int.Defs

/-!
# The integer square root over all types

`Math::sqrt` of `utility/math.h` for the integral types of 16, 32 and 64 bits. An operator computes
in the promoted type of its operands, and an assignment converts to `T`. Besides the root, the
model tells whether all of these values have been exact; one that has not wraps around.
-/

namespace Epos

/-- The integral types of at least 16 bits. -/
inductive IntegralType where
  | short
  | unsigned_short
  | int
  | unsigned_int
  | long_long
  | unsigned_long_long
  deriving DecidableEq, Repr

namespace IntegralType

/-- `sizeof(T) * 8`. -/
def bits : IntegralType → Nat
  | short | unsigned_short => 16
  | int | unsigned_int => 32
  | long_long | unsigned_long_long => 64

def signed : IntegralType → Bool
  | short | int | long_long => true
  | unsigned_short | unsigned_int | unsigned_long_long => false

/-- The type in which operators compute. -/
def promoted : IntegralType → IntegralType
  | short | unsigned_short => int
  | T => T

/-- The value that an integer has in a type. -/
def wrap (T : IntegralType) (x : Int) : Int :=
  if T.signed then x.bmod (2 ^ T.bits) else x % 2 ^ T.bits

end IntegralType

namespace Math.Checked

/-- The second loop of `sqrt`. `fits` is whether no value has wrapped around so far. -/
def sqrtFrom (T : IntegralType) : (x res one : Int) → (fits : Bool) → Nat → Option (Int × Bool)
  | _, _, _, _, 0 => none
  | x, res, one, fits, fuel + 1 =>
    if one ≠ 0 then
      -- each operation wraps at the type that the promotions give it
      let sum := T.promoted.wrap (res + one)
      if x ≥ sum then
        let rest := T.wrap (T.promoted.wrap (x - sum))
        let twice := T.promoted.wrap (2 * one)
        let res' := T.wrap (T.promoted.wrap (res + twice))
        sqrtFrom T rest (res' >>> (1 : Nat)) (one >>> (2 : Nat))
          (fits && sum = res + one && rest = x - sum && twice = 2 * one && res' = res + 2 * one) fuel
      else sqrtFrom T x (res >>> (1 : Nat)) (one >>> (2 : Nat)) (fits && sum = res + one) fuel
    else some (res, fits)

/-- `sqrt<T>(x)`. -/
def sqrt (T : IntegralType) (x : Int) (fuel : Nat) : Option (Int × Bool) :=
  let one := T.wrap (T.promoted.wrap ((1 : Int) <<< (T.bits - 2)))
  (highestPower x one fuel).bind fun one' =>
    sqrtFrom T x 0 one' (one = (1 : Int) <<< (T.bits - 2)) fuel

end Math.Checked

end Epos
