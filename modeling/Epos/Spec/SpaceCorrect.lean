import Epos.SmartData.Space
import Epos.Spec.GeometryCorrect

/-!
# Distances and regions at every scale

A region answers correctly for the points whose squared distance from its center is below a
quarter of the values of the type of the root: always with 8-bit coordinates, up to 32767 units
with 16-bit ones, and up to 2147483647 with 32-bit ones.
-/

namespace Epos

namespace SmartData

open Fuel Epos.Geometry

variable {S : Scale}

/-- `contains` returns whether the time is in the interval and the distance, rounded down, is at
    most the radius. -/
def Region.ContainsCorrect (r : Region S) (st : Spacetime S) : Prop :=
  ∃ b, Returns (r.contains st) b ∧
    (b = true ↔ (r.t0 ≤ st.t ∧ st.t ≤ r.t1) ∧
      Nat.sqrt (r.center.squaredDistance st.toPoint) ≤ r.radius.toNat)

theorem Time_Interval.contains_iff {interval : Time_Interval} {t : Time} :
    interval.contains t = true ↔ interval.t0 ≤ t ∧ t ≤ interval.t1 := by
  rw [Time_Interval.contains, Bool.and_eq_true, decide_eq_true_iff, decide_eq_true_iff, ge_iff_le]

theorem Region.containsCorrect_of_sphere {r : Region S} {st : Spacetime S}
    (h : r.toSphere.ContainsCorrect st.toPoint) : r.ContainsCorrect st := by
  have htime := @Time_Interval.contains_iff r.toTime_Interval st.t
  by_cases hin : r.toTime_Interval.contains st.t = true
  · obtain ⟨b, ⟨fuel, hfuel⟩, hb⟩ := h
    refine ⟨b, ⟨fuel, ?_⟩, ?_⟩
    · rw [Region.contains, if_pos hin, hfuel]
    · rw [hb, and_iff_right (htime.mp hin)]
  · -- the distance is not computed
    refine ⟨false, ⟨0, ?_⟩, ?_⟩
    · rw [Region.contains, if_neg hin]
    · exact iff_of_false Bool.false_ne_true fun hand => hin (htime.mpr hand.1)

/-- The bits of a root, at each scale. -/
def Scale.rootBits : Scale → Nat
  | CM_32 => 31
  | _ => 15

theorem Scale.fits (S : Scale) : Fits S.number S.rootBits := by
  cases S <;> exact ⟨rfl, by decide, by decide, by decide⟩

theorem Scale.four_pow_rootBits (S : Scale) :
    4 ^ S.rootBits = 2 ^ (S.number.LARGER.promoted.bits - 2) := by
  cases S <;> rfl

/-- Distances and memberships are correct for the points that are not too far from the center. -/
theorem contains_correct_iff (r : Region S) (st : Spacetime S) :
    (r.center.DistanceCorrect st.toPoint ∧ r.toSphere.ContainsCorrect st.toPoint ∧
      r.ContainsCorrect st) ↔
    r.center.squaredDistance st.toPoint < 2 ^ (S.number.LARGER.promoted.bits - 2) := by
  rw [← S.four_pow_rootBits, ← distance_correct_iff S.fits]
  constructor
  · intro h
    exact h.1
  · intro h
    have hsphere : r.toSphere.ContainsCorrect st.toPoint := h.contains
    exact ⟨h, hsphere, Region.containsCorrect_of_sphere hsphere⟩

/-- A negative radicand. -/
theorem not_returns_contains {r : Region S} {st : Spacetime S}
    (hneg : r.center.radicand st.toPoint < 0) (hin : r.toTime_Interval.contains st.t = true)
    {b : Bool} : ¬ Returns (r.contains st) b := by
  intro ⟨fuel, hfuel⟩
  rw [Region.contains, if_pos hin] at hfuel
  obtain ⟨d, hd, -⟩ := Option.map_eq_some_iff.mp hfuel
  obtain ⟨root, hroot, -⟩ := Option.map_eq_some_iff.mp hd
  exact Math.not_returns_sqrt_neg S.fits.sum hneg ⟨fuel, hroot⟩

/-- A region of 16-bit coordinates, of the greatest radius. -/
def west : Region .CM_16 where
  center := { x := -32768 }
  radius := 65535
  t0 := 0
  t1 := 1000000

/-- The middle is 32768 units away, and the distance is `-1`; for the eastern end the first loop
    of the root runs forever. -/
theorem not_contains_correct :
    Returns (west.center.distance {}) 4294967295 ∧ ¬ west.center.DistanceCorrect {} ∧
    ¬ west.toSphere.ContainsCorrect {} ∧
    (∀ b, ¬ Returns (west.contains { x := 32767 }) b) ∧
    ¬ west.ContainsCorrect { x := 32767 } := by
  have hforever (b : Bool) : ¬ Returns (west.contains { x := 32767 }) b :=
    not_returns_contains (by decide) (by decide)
  refine ⟨⟨17, by decide +kernel⟩, ?_, ?_, hforever, ?_⟩
  · rw [distance_correct_iff (Scale.fits .CM_16)]
    decide
  · intro ⟨b, hb, hiff⟩
    have hfalse : Returns (west.toSphere.contains {}) false := ⟨17, by decide +kernel⟩
    have hroot : Nat.sqrt (west.center.squaredDistance {}) < 65536 :=
      Nat.sqrt_lt.mpr (by decide)
    cases hfalse.unique (contains_independent _ _) hb
    exact Bool.false_ne_true (hiff.mpr (Nat.le_of_lt_succ hroot))
  · intro ⟨b, hb, _⟩
    exact hforever b hb

end SmartData

end Epos
