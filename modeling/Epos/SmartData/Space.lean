import Epos.Utility.Geometry

/-!
# Space and time of SmartData

`SmartData::_Space`, `_Spacetime`, `Time_Interval` and `_Region` of `smartdata.h`, for every scale.
-/

namespace Epos

namespace SmartData

open Epos.Geometry

/-- Scales for geographic space. -/
inductive Scale where
  | CMx50_8
  | CM_16
  | CMx25_16
  | CM_32
  deriving DecidableEq, Repr

namespace Scale

/-- The value of the enumeration. -/
def code : Scale → UInt8
  | CMx50_8 => 0
  | CM_16 => 1
  | CMx25_16 => 2
  | CM_32 => 3

/-- `Number`. An `Unsigned_Number` has as many bits. -/
def number : Scale → CType
  | CMx50_8 => .char
  | CM_16 => .short
  | CMx25_16 => .short
  | CM_32 => .long

/-- `Select_Padding<S>::PADDING`. -/
def padding : Scale → Nat
  | CMx50_8 => 8
  | CM_16 => 16
  | CMx25_16 => 16
  | CM_32 => 0

end Scale

/-- `Time`, in microseconds. -/
abbrev Time := UInt64

/-- `_Space<S>`. -/
structure Space (S : Scale) extends Point S.number where
  pad : BitVec S.padding := 0
  deriving DecidableEq, Repr

/-- `_Spacetime<S>`. -/
structure Spacetime (S : Scale) extends Space S where
  t : Time := 0
  deriving DecidableEq, Repr

structure Time_Interval where
  t0 : Time
  t1 : Time
  deriving DecidableEq, Repr

def Time_Interval.contains (interval : Time_Interval) (t : Time) : Bool :=
  t ≥ interval.t0 && t ≤ interval.t1

/-- `_Region<S>`. -/
structure Region (S : Scale) extends Sphere S.number S.number.bits, Time_Interval where
  deriving DecidableEq, Repr

/-- `operator _Spacetime<S>()`. Nothing sets the padding. -/
def Region.toSpacetime {S : Scale} (r : Region S) : Spacetime S :=
  { x := r.center.x, y := r.center.y, z := r.center.z, t := r.t0 }

/-- `operator==`, which calls itself. -/
def Region.eq {S : Scale} (r r' : Region S) : Nat → Option Bool
  | 0 => none
  | fuel + 1 => eq r r' fuel

/-- `contains(st)`. The sphere is looked at only when the time is in the interval. -/
def Region.contains {S : Scale} (r : Region S) (st : Spacetime S) (fuel : Nat) : Option Bool :=
  if r.toTime_Interval.contains st.t then r.toSphere.contains st.toPoint fuel else some false

end SmartData

end Epos
