import Epos.SmartData.Space

/-!
# Messages of SmartData

`SmartData::_Header`, `Interest` and `Response` of `smartdata.h`. The getters that return a field
are the fields; the others are functions under their names. Two fields share a byte in `_subtype`
and `_precision`, and in `_mode` and `_error`. The structures are packed and in little-endian
memory. `value` and `size`, and the setters, are left out.
-/

namespace Epos

namespace SmartData

variable {S : Scale}

/-- `long`. -/
abbrev Time_Offset := Int32

/-- `unsigned long`. -/
abbrev Device_Id := UInt32

/-- `Mode`, `Type`, `Subtype` and `Version`. -/
abbrev Code := UInt8

/-- `Error` and `Precision`: `char`. -/
abbrev Error := Int8

def NONE : Code := 0
def INTEREST : Code := 0
def RESPONSE : Code := 1
def V0 : Code := 0

/-! ## Headers -/

/-- `_Header<S>`. -/
structure Header (S : Scale) where
  config : UInt8
  /-- And `_precision`. -/
  subtype : Code
  /-- And `_error`. -/
  mode : Code
  location_confidence : UInt8
  origin : Spacetime S
  unit : UInt32
  device : Device_Id
  last_hop : Spacetime S

namespace Header

/-- `_config`. -/
def packConfig (S : Scale) (tr : Bool) (t v : Code) : UInt8 :=
  (S.code &&& 0x03) <<< 6 ||| (if tr then (1 : UInt8) else 0) <<< 5 ||| (t &&& 0x03) <<< 3 |||
    (v &&& 0x07)

/-- `_Header(u, d, t, st, m, tr, c, lh, v)`. -/
def ofUnit (u : UInt32) (d : Device_Id) (t : Code) (st : Code := NONE) (m : Code := NONE)
    (tr : Bool := false) (c : UInt8 := 0) (lh : Spacetime S := {}) (v : Code := V0) :
    Header S where
  config := packConfig S tr t v
  subtype := st
  mode := m
  location_confidence := c
  origin := {}
  unit := u
  device := d
  last_hop := lh

/-- `_Header(o, u, d, t, st, m, tr, c, lh, v)`. -/
def ofOrigin (o : Spacetime S) (u : UInt32) (d : Device_Id) (t : Code) (st : Code := NONE)
    (m : Code := NONE) (tr : Bool := false) (c : UInt8 := 0) (lh : Spacetime S := {})
    (v : Code := V0) : Header S where
  config := packConfig S tr t v
  subtype := st
  mode := m
  location_confidence := c
  origin := o
  unit := u
  device := d
  last_hop := lh

variable (h : Header S)

def version : Code := h.config &&& 0x07

def type : Code := (h.config >>> 3) &&& 0x03

def time_request : Bool := (h.config >>> 5) &&& 0x01 ≠ 0

/-- As a number. -/
def scale : UInt8 := (h.config >>> 6) &&& 0x03

def space : Space S := h.origin.toSpace

end Header

/-- What is in memory, the first byte lowest. -/
def Spacetime.memory (st : Spacetime S) :
    BitVec (64 + S.padding + S.number.bits + S.number.bits + S.number.bits) :=
  st.t.toBitVec ++ st.pad ++ st.z ++ st.y ++ st.x

/-- `time()`: the origin is reinterpreted. -/
def Header.time (h : Header S) : Time := UInt64.ofBitVec (h.origin.memory.setWidth 64)

/-! ## Interests and responses -/

/-- The conversion of a number to `bool`. -/
def toBool (x : Int8) : Bool := x ≠ 0

structure Interest (S : Scale) extends Header S where
  region : Region S
  expiry : Time_Offset
  period : Time_Offset

namespace Interest

/-- `Interest(region, unit, device, mode, precision, expiry, period)`. The sixth argument of the
    header is `tr`. -/
def new (region : Region S) (unit : UInt32) (device : Device_Id) (mode : Code)
    (precision : Error) (expiry period : Time_Offset) : Interest S where
  toHeader := Header.ofUnit unit device INTEREST NONE mode (toBool precision)
  region := region
  expiry := expiry
  period := period

def precision (m : Interest S) : Error := m.subtype.toInt8

end Interest

structure Response (S : Scale) extends Header S where
  confidence : UInt8
  expiry : Time_Offset

namespace Response

/-- `Response(origin, unit, device, mode, error, confidence, expiry)`. The seventh argument of the
    header is `tr`. -/
def new (origin : Spacetime S) (unit : UInt32) (device : Device_Id) (mode : Code) (error : Error)
    (confidence : UInt8) (expiry : Time_Offset) : Response S where
  toHeader := Header.ofOrigin origin unit device RESPONSE NONE mode (toBool error)
  confidence := confidence
  expiry := expiry

def error (m : Response S) : Error := m.mode.toInt8

end Response

end SmartData

end Epos
