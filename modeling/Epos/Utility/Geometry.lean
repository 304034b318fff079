import Mathlib.Algebra.Group.Nat.Defs
import Mathlib.Data.Int.Init

/-!
# Points, spheres and the integer square root

`Point<T, 3>` and `Sphere` of `utility/geometry.h` with `Math::sqrt` of `utility/math.h`, over
the signed types of C++ on a machine with 32-bit words. An operation is made in a type of its
own: what does not fit wraps around, as the processor does it, and `>>` keeps the sign. The loops
take fuel, since the one of `sqrt` that looks for the first power of four need not end.
-/

namespace Epos

/-- Signed integral types. -/
inductive CType where
  | char
  | short
  | int
  | long
  | long_long
  deriving DecidableEq, Repr

namespace CType

/-- `sizeof(T) * 8`. -/
def bits : CType → Nat
  | char => 8
  | short => 16
  | int => 32
  | long => 32
  | long_long => 64

/-- `LARGER<T>::Result` of `system/meta.h`. -/
def LARGER : CType → CType
  | char => short
  | short => int
  | int => long_long
  | long => long_long
  | long_long => long_long

/-- The type in which operators compute. -/
def promoted : CType → CType
  | char => int
  | short => int
  | T => T

/-- The value that an integer has in a type. -/
def wrap (T : CType) (x : Int) : Int := x.bmod (2 ^ T.bits)

end CType

namespace Math

/-- The first loop of `sqrt`: "one" starts at the highest power of four <= than the argument. -/
def highestPower (x : Int) : Int → Nat → Option Int
  | _, 0 => none
  | one, fuel + 1 => if one > x then highestPower x (one >>> (2 : Nat)) fuel else some one

/-- The second loop of `sqrt`. -/
def sqrtFrom (T : CType) : Int → Int → Int → Nat → Option Int
  | _, _, _, 0 => none
  | x, res, one, fuel + 1 =>
    if one ≠ 0 then
      if x ≥ T.wrap (res + one) then
        sqrtFrom T (T.wrap (x - T.wrap (res + one))) (T.wrap (res + T.wrap (2 * one)) >>> (1 : Nat))
          (one >>> (2 : Nat)) fuel
      else sqrtFrom T x (res >>> (1 : Nat)) (one >>> (2 : Nat)) fuel
    else some res

/-- `sqrt<T>(x)`. -/
def sqrt (T : CType) (x : Int) (fuel : Nat) : Option Int :=
  (highestPower x (T.wrap ((1 : Int) <<< (T.bits - 2))) fuel).bind fun one => sqrtFrom T x 0 one fuel

end Math

namespace Geometry

/-- `Point<T, 3>`. -/
structure Point (T : CType) where
  x : BitVec T.bits := 0
  y : BitVec T.bits := 0
  z : BitVec T.bits := 0
  deriving DecidableEq, Repr

/-- `Point<T, 3>::Distance`. -/
abbrev Distance (T : CType) := BitVec T.LARGER.bits

/-- `p > x ? p - x : x - p` as a `Larger_T`. -/
def difference (T : CType) (x p : BitVec T.bits) : Int :=
  T.LARGER.wrap
    (T.promoted.wrap (if p.toInt > x.toInt then p.toInt - x.toInt else x.toInt - p.toInt))

/-- `xx * xx + yy * yy + zz * zz`. -/
def Point.radicand {T : CType} (c p : Point T) : Int :=
  let wrap := T.LARGER.promoted.wrap
  let xx := difference T c.x p.x
  let yy := difference T c.y p.y
  let zz := difference T c.z p.z
  wrap (wrap (wrap (xx * xx) + wrap (yy * yy)) + wrap (zz * zz))

/-- `operator-`: the Euclidean distance. -/
def Point.distance {T : CType} (c p : Point T) (fuel : Nat) : Option (Distance T) :=
  (Math.sqrt T.LARGER.promoted (c.radicand p) fuel).map fun root => BitVec.ofInt _ root

/-- `Sphere<T1, T2>`, where `T2` is unsigned and has `radiusBits`. -/
structure Sphere (T1 : CType) (radiusBits : Nat) where
  center : Point T1
  radius : BitVec radiusBits := 0
  deriving DecidableEq, Repr

def Sphere.contains {T1 : CType} {radiusBits : Nat} (s : Sphere T1 radiusBits) (c : Point T1)
    (fuel : Nat) : Option Bool :=
  (s.center.distance c fuel).map fun distance => decide (distance.toNat ≤ s.radius.toNat)

end Geometry

end Epos
