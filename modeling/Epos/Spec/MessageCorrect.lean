import Epos.SmartData.Message

/-!
# The fields of messages

An interest returns what it was built with when its precision is zero, which is the only one that
its constructor keeps. A response does when its mode and its error are zero, and its time is what
the first eight bytes of its origin say.
-/

namespace Epos

namespace SmartData

variable {S : Scale}

/-- What every message reports about itself. -/
structure Header.Reports (h : Header S) (t : Code) : Prop where
  type : h.type = t
  scale : h.scale = S.code
  version : h.version = V0
  time_request : h.time_request = false

/-- The byte of the configuration has room for all of its fields. -/
theorem Header.config_reads {h : Header S} {tr : Bool} {t : Code}
    (hconfig : h.config = packConfig S tr t V0) (ht : t = INTEREST ∨ t = RESPONSE) :
    h.type = t ∧ h.scale = S.code ∧ h.version = V0 ∧ h.time_request = tr := by
  unfold Header.type Header.scale Header.version Header.time_request
  rw [hconfig]
  cases ht with
  | inl ht => subst ht; cases S <;> cases tr <;> decide
  | inr ht => subst ht; cases S <;> cases tr <;> decide

/-- A message without a time request reports what it is. -/
theorem Header.reports_iff {h : Header S} {tr : Bool} {t : Code}
    (hconfig : h.config = packConfig S tr t V0) (ht : t = INTEREST ∨ t = RESPONSE) :
    h.Reports t ↔ tr = false := by
  obtain ⟨htype, hscale, hversion, hrequest⟩ := config_reads hconfig ht
  constructor
  · intro h
    exact hrequest.symm.trans h.time_request
  · intro htr
    exact ⟨htype, hscale, hversion, hrequest.trans htr⟩

theorem toBool_eq_false {x : Int8} : toBool x = false ↔ x = 0 := by
  rw [toBool, decide_eq_false_iff_not, ne_eq, Decidable.not_not]

/-! ## Interests -/

/-- The getters of an interest return these. -/
structure Interest.Holds (m : Interest S) (region : Region S) (unit : UInt32) (device : Device_Id)
    (mode : Code) (precision : Error) (expiry period : Time_Offset) : Prop where
  region : m.region = region
  unit : m.unit = unit
  device : m.device = device
  mode : m.mode = mode
  precision : m.precision = precision
  expiry : m.expiry = expiry
  period : m.period = period

/-- The precision of the constructor is a time request. -/
theorem interest_iff (region : Region S) (unit : UInt32) (device : Device_Id) (mode : Code)
    (precision : Error) (expiry period : Time_Offset) :
    ((Interest.new region unit device mode precision expiry period).Holds region unit device mode
        precision expiry period ∧
      (Interest.new region unit device mode precision expiry period).Reports INTEREST) ↔
    precision = 0 := by
  rw [Header.reports_iff (show _ = Header.packConfig S (toBool precision) INTEREST V0 from rfl)
    (Or.inl rfl), toBool_eq_false]
  constructor
  · intro h
    exact h.2
  · intro h
    exact ⟨⟨rfl, rfl, rfl, rfl, h.symm, rfl, rfl⟩, h⟩

/-! ## Responses -/

/-- The time is what the coordinates and the padding say that are in front of it in memory. With
    8-bit coordinates, these are as many bytes as are missing of the time itself. -/
def Spacetime.TimeInFront : {S : Scale} → Spacetime S → Prop
  | .CMx50_8, st =>
    st.t.toNat = (2 ^ 32 + 1) *
      (st.x.toNat + 2 ^ 8 * st.y.toNat + 2 ^ 16 * st.z.toNat + 2 ^ 24 * st.pad.toNat)
  | .CM_16, st | .CMx25_16, st =>
    st.t.toNat =
      st.x.toNat + 2 ^ 16 * st.y.toNat + 2 ^ 32 * st.z.toNat + 2 ^ 48 * st.pad.toNat
  | .CM_32, st => st.t.toNat = st.x.toNat + 2 ^ 32 * st.y.toNat

theorem toNat_append {m n : Nat} (x : BitVec m) (y : BitVec n) :
    (x ++ y).toNat = 2 ^ n * x.toNat + y.toNat := by
  rw [BitVec.toNat_append, ← Nat.shiftLeft_add_eq_or_of_lt y.isLt, Nat.shiftLeft_eq, Nat.mul_comm]

theorem toNat_memory (st : Spacetime S) :
    st.memory.toNat =
      2 ^ S.number.bits * (2 ^ S.number.bits * (2 ^ S.number.bits *
        (2 ^ S.padding * st.t.toNat + st.pad.toNat) + st.z.toNat) + st.y.toNat) + st.x.toNat := by
  rw [Spacetime.memory, toNat_append, toNat_append, toNat_append, toNat_append]
  rfl

/-- The first eight bytes of a place in spacetime. -/
theorem memory_mod_iff (st : Spacetime S) :
    st.memory.toNat % 2 ^ 64 = st.t.toNat ↔ st.TimeInFront := by
  have ht : st.t.toNat < 2 ^ 64 := st.t.toNat_lt
  have hx := st.x.isLt
  have hy := st.y.isLt
  have hz := st.z.isLt
  have hpad := st.pad.isLt
  -- scale by scale: how wide the coordinates are, and so where the time begins
  rw [toNat_memory]
  cases S with
  | CMx50_8 =>
    show _ ↔ st.t.toNat = (2 ^ 32 + 1) *
      (st.x.toNat + 2 ^ 8 * st.y.toNat + 2 ^ 16 * st.z.toNat + 2 ^ 24 * st.pad.toNat)
    generalize st.t.toNat = t, st.x.toNat = x, st.y.toNat = y, st.z.toNat = z,
      st.pad.toNat = pad at *
    simp only [Scale.number, Scale.padding, CType.bits] at *
    omega
  | CM_16 =>
    show _ ↔ st.t.toNat =
      st.x.toNat + 2 ^ 16 * st.y.toNat + 2 ^ 32 * st.z.toNat + 2 ^ 48 * st.pad.toNat
    generalize st.t.toNat = t, st.x.toNat = x, st.y.toNat = y, st.z.toNat = z,
      st.pad.toNat = pad at *
    simp only [Scale.number, Scale.padding, CType.bits] at *
    omega
  | CMx25_16 =>
    show _ ↔ st.t.toNat =
      st.x.toNat + 2 ^ 16 * st.y.toNat + 2 ^ 32 * st.z.toNat + 2 ^ 48 * st.pad.toNat
    generalize st.t.toNat = t, st.x.toNat = x, st.y.toNat = y, st.z.toNat = z,
      st.pad.toNat = pad at *
    simp only [Scale.number, Scale.padding, CType.bits] at *
    omega
  | CM_32 =>
    show _ ↔ st.t.toNat = st.x.toNat + 2 ^ 32 * st.y.toNat
    generalize st.t.toNat = t, st.x.toNat = x, st.y.toNat = y, st.z.toNat = z,
      st.pad.toNat = pad at *
    simp only [Scale.number, Scale.padding, CType.bits] at *
    omega

theorem time_eq_iff (h : Header S) : h.time = h.origin.t ↔ h.origin.TimeInFront := by
  rw [Header.time, ← UInt64.toNat_inj, ← memory_mod_iff, ← BitVec.toNat_setWidth]
  rfl

/-- The getters of a response return these. -/
structure Response.Holds (m : Response S) (origin : Spacetime S) (unit : UInt32)
    (device : Device_Id) (mode : Code) (error : Error) (confidence : UInt8)
    (expiry : Time_Offset) : Prop where
  origin : m.origin = origin
  unit : m.unit = unit
  device : m.device = device
  mode : m.mode = mode
  error : m.error = error
  confidence : m.confidence = confidence
  expiry : m.expiry = expiry
  time : m.time = m.origin.t
  space : m.space = m.origin.toSpace

/-- The error of the constructor is a time request, and the one that is returned is the mode. -/
theorem response_iff (origin : Spacetime S) (unit : UInt32) (device : Device_Id) (mode : Code)
    (error : Error) (confidence : UInt8) (expiry : Time_Offset) :
    ((Response.new origin unit device mode error confidence expiry).Holds origin unit device mode
        error confidence expiry ∧
      (Response.new origin unit device mode error confidence expiry).Reports RESPONSE) ↔
    mode = 0 ∧ error = 0 ∧ origin.TimeInFront := by
  rw [Header.reports_iff (show _ = Header.packConfig S (toBool error) RESPONSE V0 from rfl)
    (Or.inr rfl), toBool_eq_false]
  have htime := time_eq_iff (Response.new origin unit device mode error confidence expiry).toHeader
  have hmode : mode.toInt8 = 0 ↔ mode = 0 :=
    ⟨fun h => congrArg Int8.toUInt8 h, fun h => congrArg UInt8.toInt8 h⟩
  constructor
  · intro ⟨h, herror⟩
    have hshared : mode.toInt8 = error := h.error
    exact ⟨hmode.mp (hshared.trans herror), herror, htime.mp h.time⟩
  · intro ⟨hm, herror, hfront⟩
    have hshared : mode.toInt8 = error := (hmode.mpr hm).trans herror.symm
    exact ⟨⟨rfl, rfl, rfl, rfl, hshared, rfl, rfl, htime.mpr hfront, rfl⟩, herror⟩

/-- What messages return is what they were built with exactly in these cases. -/
theorem fields_correct_iff :
    (∀ (region : Region S) unit device mode precision expiry period,
      ((Interest.new region unit device mode precision expiry period).Holds region unit device mode
          precision expiry period ∧
        (Interest.new region unit device mode precision expiry period).Reports INTEREST) ↔
      precision = 0) ∧
    (∀ (origin : Spacetime S) unit device mode error confidence expiry,
      ((Response.new origin unit device mode error confidence expiry).Holds origin unit device mode
          error confidence expiry ∧
        (Response.new origin unit device mode error confidence expiry).Reports RESPONSE) ↔
      mode = 0 ∧ error = 0 ∧ origin.TimeInFront) :=
  ⟨interest_iff, response_iff⟩

/-- An interest in values with a precision of `10^2`, in all of space and time. -/
def anywhere : Interest .CM_16 :=
  Interest.new { center := {}, radius := 65535, t0 := 0, t1 := 18446744073709551615 } 0 0 0 2 0 0

/-- An advertised value with an error of `10^2`, from a place 100 units away at time 5000. -/
def advertised : Response .CM_16 :=
  Response.new { x := 100, t := 5000 } 0 0 1 2 90 0

/-- The precision and the error become time requests and are lost, and the time is a coordinate. -/
theorem not_fields_correct :
    (anywhere.precision = 0 ∧ anywhere.time_request = true ∧
      ¬ anywhere.Holds anywhere.region 0 0 0 2 0 0 ∧ ¬ anywhere.Reports INTEREST) ∧
    (advertised.error = 1 ∧ advertised.time_request = true ∧ advertised.time = 100 ∧
      ¬ advertised.Holds { x := 100, t := 5000 } 0 0 1 2 90 0 ∧
      ¬ advertised.Reports RESPONSE) := by
  have hinterest : anywhere.time_request = true := by decide
  have hresponse : advertised.time_request = true := by decide
  have herror : advertised.error = 1 := by decide
  refine ⟨⟨rfl, hinterest, fun h => ?_, fun h => ?_⟩, ⟨herror, hresponse, by decide, ?_, fun h => ?_⟩⟩
  · exact absurd h.precision (by decide)
  · cases hinterest.symm.trans h.time_request
  · intro h
    exact absurd h.error (by decide)
  · cases hresponse.symm.trans h.time_request

end SmartData

end Epos
