import Epos.SmartData.Message
import Mathlib.Logic.Function.Basic

/-!
# Bindings of responsive SmartData

`Responsive_SmartData::bind`, `unbind` and the case of `update` for interests, of `smartdata.h`.
The objects of one transducer share the list of bindings. A loop over it compares regions, which
takes fuel. The value that `update` senses and the response that it sends are left out.
-/

namespace Epos

namespace SmartData

variable {S : Scale}

def ADVERTISED : Code := 1
def DELETE : Code := 2

/-- `Microsecond`. -/
abbrev Microsecond := UInt64

/-- The conversion of a `Time_Offset`. -/
def Time_Offset.toMicrosecond (offset : Time_Offset) : Microsecond := offset.toInt64.toUInt64

/-- `Math::gcd` for a period and an offset: its recursion has the type of the offset. -/
def gcd (a : Microsecond) (b : Time_Offset) : Microsecond :=
  if b = 0 then a
  else
    let divisor : Microsecond := .ofNat (Nat.gcd a.toNat b.toMicrosecond.toNat)
    Time_Offset.toMicrosecond divisor.toUInt32.toInt32

/-- What is kept of an interest. Nothing here reads its `device`, which the source does not keep. -/
structure Binding (S : Scale) where
  device : Device_Id
  region : Region S
  mode : Code
  precision : Error
  expiry : Time_Offset
  period : Time_Offset

/-- `Binding(interest)`. -/
def Binding.new (interest : Interest S) : Binding S where
  device := interest.device
  region := interest.region
  mode := interest.mode
  precision := interest.precision
  expiry := interest.expiry
  period := interest.period

/-- `_device` and `_mode`. -/
structure Responsive where
  device : Device_Id
  mode : Code

/-- `_interesteds`, and the period of `_thread` and whether there is a `_predictor` for each
    object. -/
structure Bindings (S : Scale) (Obj : Type) where
  interesteds : List (Binding S) := []
  thread : Obj → Option Microsecond := fun _ => none
  predictor : Obj → Bool := fun _ => false

/-- The place of the first binding that passes a test. -/
def search (test : Binding S → Nat → Option Bool) : List (Binding S) → Nat → Option (Option Nat)
  | [], _ => some none
  | b :: rest, fuel =>
    (test b fuel).bind fun passes =>
      if passes then some (some 0) else (search test rest fuel).map (Option.map (· + 1))

namespace Bindings

variable {Obj : Type} [DecidableEq Obj] (object : Obj → Responsive) (s : Bindings S Obj) (o : Obj)
variable (interest : Interest S)

/-- The test of `bind`. -/
def covers (b : Binding S) (fuel : Nat) : Option Bool :=
  if interest.device = (object o).device then
    b.region.contains interest.region.toSpacetime fuel
  else some false

/-- The test of `unbind`. -/
def matching (b : Binding S) (fuel : Nat) : Option Bool :=
  if interest.device = (object o).device then b.region.eq interest.region fuel else some false

/-- The thread of the object for one more interest. -/
def schedule : Option Microsecond :=
  if interest.period = 0 then s.thread o
  else
    match s.thread o with
    | none => some interest.period.toMicrosecond
    | some period =>
      if interest.period.toMicrosecond ≠ period then some (gcd period interest.period)
      else some period

/-- A new binding. -/
def insert : Bindings S Obj :=
  { s with
    interesteds := s.interesteds ++ [Binding.new interest]
    thread := Function.update s.thread o (s.schedule o interest) }

/-- A binding less. The last one takes the thread and the predictor with it. -/
def remove (i : Nat) : Bindings S Obj :=
  let s := { s with interesteds := s.interesteds.eraseIdx i }
  if s.interesteds.isEmpty then
    { s with
      thread := Function.update s.thread o none
      predictor := Function.update s.predictor o false }
  else s

/-- `bind(interest)`. -/
def bind (fuel : Nat) : Option (Bindings S Obj) :=
  (search (covers object o interest) s.interesteds fuel).map fun found =>
    match found with
    | some _ => s
    | none => s.insert o interest

/-- `unbind(interest)`. -/
def unbind (fuel : Nat) : Option (Bindings S Obj) :=
  (search (matching object o interest) s.interesteds fuel).map fun found =>
    match found with
    | some i => s.remove o i
    | none => s

/-- `update(obs, unit, buffer)` for an interest. -/
def update (fuel : Nat) : Option (Bindings S Obj) :=
  if (object o).mode &&& ADVERTISED ≠ 0 then
    if interest.mode = DELETE then s.unbind object o interest fuel
    else s.bind object o interest fuel
  else some s

end Bindings

end SmartData

end Epos
