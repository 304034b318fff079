import Epos.Spec.ResponsiveCorrect
import Mathlib.Data.Nat.GCD.Basic

/-!
# The period of an updater

Interests for its own device that an object receives one after the other, none of them revoked.
A new binding folds its period into the one of the thread. An interest with a region that is
contained in a bound one is not bound, and its period is not looked at.
-/

namespace Epos

namespace SmartData

open Fuel

variable {S : Scale}

/-! ## The greatest common divisor -/

/-- The recursion of `Math::gcd`. -/
def euclid (a b : Microsecond) : Microsecond :=
  if _h : b = 0 then a else euclid b (a % b)
termination_by b.toNat
decreasing_by
  have hpos : 0 < b.toNat := Nat.pos_of_ne_zero fun hzero => _h (UInt64.toNat_inj.mp hzero)
  rw [UInt64.toNat_mod]
  exact Nat.mod_lt _ hpos

/-- The algorithm of Euclid. -/
theorem toNat_euclid (a b : Microsecond) : (euclid a b).toNat = Nat.gcd a.toNat b.toNat := by
  induction a, b using euclid.induct with
  | case1 a => simp [euclid]
  | case2 a b h ih =>
    rw [euclid, dif_neg h, ih, UInt64.toNat_mod, Nat.gcd_comm, ← Nat.gcd_rec, Nat.gcd_comm]

/-- `gcd` is the recursion, with a result of the type of the offset. -/
theorem gcd_eq_euclid (a : Microsecond) (b : Time_Offset) :
    gcd a b = if b = 0 then a else
      Time_Offset.toMicrosecond (euclid a b.toMicrosecond).toUInt32.toInt32 := by
  rw [gcd, ← toNat_euclid, UInt64.ofNat_toNat]

section Periods

variable {p : Microsecond} {q : Time_Offset}

/-- A period that is not negative keeps its value. -/
theorem toNat_toMicrosecond (hq : 0 ≤ q) : (q.toMicrosecond.toNat : Int) = q.toInt := by
  have hle : 0 ≤ q.toInt64.toInt := by
    rw [Int32.toInt_toInt64]
    exact Int32.le_iff_toInt_le.mp hq
  have hle' : (0 : Int64) ≤ q.toInt64 := Int64.le_iff_toInt_le.mpr hle
  rw [Time_Offset.toMicrosecond, Int64.toNat_toUInt64_of_le hle', Int64.toNatClampNeg,
    Int.toNat_of_nonneg hle, Int32.toInt_toInt64]

/-- A divisor of 31 bits comes back as it is. -/
theorem toNat_divisor {d : Nat} (hd : d < 2 ^ 31) :
    (Time_Offset.toMicrosecond (UInt64.ofNat d).toUInt32.toInt32).toNat = d := by
  have hvalue : (UInt64.ofNat d).toUInt32.toInt32.toInt = (d : Int) := by
    show (UInt64.ofNat d).toUInt32.toBitVec.toInt = d
    rw [BitVec.toInt_eq_toNat_of_lt]
    · simp
      omega
    · simp
      omega
  have hle : (0 : Int32) ≤ (UInt64.ofNat d).toUInt32.toInt32 := by
    rw [Int32.le_iff_toInt_le, hvalue]
    exact Int.natCast_nonneg d
  have heq := toNat_toMicrosecond hle
  omega

/-- The period of two interests. -/
theorem toNat_gcd (hq : 0 < q) : (gcd p q).toNat = Nat.gcd p.toNat q.toMicrosecond.toNat := by
  have hlt : 0 < q.toInt := Int32.lt_iff_toInt_lt.mp hq
  have hvalue := toNat_toMicrosecond (Int32.le_of_lt hq)
  have hbound : q.toInt < 2 ^ 31 := q.toInt_lt
  have hpos : 0 < q.toMicrosecond.toNat := by omega
  have hle := Nat.gcd_le_right p.toNat hpos
  have hne : q ≠ 0 := (Int32.ne_of_lt hq).symm
  rw [gcd, if_neg hne, toNat_divisor (by omega)]

/-- A thread with the period `p` runs whenever an interest with the period `q` is due. -/
def Divides (p : Microsecond) (q : Time_Offset) : Prop := (p.toNat : Int) ∣ q.toInt

/-- When one period divides another. -/
theorem divides_iff (hq : 0 < q) : Divides p q ↔ p.toNat ∣ q.toMicrosecond.toNat := by
  rw [Divides, ← toNat_toMicrosecond (Int32.le_of_lt hq), Int.natCast_dvd_natCast]

end Periods

/-! ## One interest -/

section Interests

variable {Obj : Type} [DecidableEq Obj] (object : Obj → Responsive) (o : Obj)
variable {s s' : Bindings S Obj} {m : Interest S} {l : List (Binding S)}

omit [DecidableEq Obj] in
/-- A new binding has the greatest common divisor of its period and of the one so far. -/
theorem schedule_eq (hpos : 0 < m.period) :
    ∃ p, s.schedule o m = some p ∧
      p.toNat = Nat.gcd ((s.thread o).elim 0 UInt64.toNat) m.period.toMicrosecond.toNat := by
  have hne : m.period ≠ 0 := (Int32.ne_of_lt hpos).symm
  rw [Bindings.schedule, if_neg hne]
  cases hthread : s.thread o with
  | none => exact ⟨_, rfl, (Nat.gcd_zero_left _).symm⟩
  | some p =>
    by_cases heq : m.period.toMicrosecond = p
    · exact ⟨p, by simp [heq], by simp [heq]⟩
    · exact ⟨gcd p m.period, by simp [heq], toNat_gcd hpos⟩

/-- The test of `bind` for an object with the device of the interest. -/
def holds (m : Interest S) (b : Binding S) : Nat → Option Bool :=
  b.region.contains m.region.toSpacetime

/-- The test does not depend on the fuel. -/
theorem holds_independent (m : Interest S) (b : Binding S) : Independent (holds m b) :=
  b.region.contains_independent _

/-- A search that finds nothing has had an answer from all bindings. -/
theorem returns_search_none_iff {test : Binding S → Nat → Option Bool}
    (htest : ∀ b, Independent (test b)) :
    Returns (search test l) none ↔ ∀ b ∈ l, Returns (test b) false := by
  induction l with
  | nil => simp [returns_const_iff, search]
  | cons b rest ih =>
    rw [returns_search_cons htest, List.forall_mem_cons, ← ih]
    simp

/-- When an interest is bound. -/
theorem returns_bind (hadv : (object o).mode &&& ADVERTISED ≠ 0) (hmode : m.mode ≠ DELETE)
    (hdevice : m.device = (object o).device) :
    Returns (s.update object o m) s' ↔
      (FirstPasses (holds m) s.interesteds ∧ s' = s) ∨
      ((∀ b ∈ s.interesteds, Returns (holds m b) false) ∧ s' = s.insert o m) := by
  have htest : Bindings.covers object o m = holds m := by
    funext b fuel
    rw [Bindings.covers, if_pos hdevice, holds]
  rw [returns_update_bind object hadv hmode, htest, ← returns_search_iff (holds_independent m),
    ← returns_search_none_iff (holds_independent m)]
  constructor
  · rintro ⟨found, hfound, heq⟩
    cases found with
    | some i => exact Or.inl ⟨⟨i, hfound⟩, heq.symm⟩
    | none => exact Or.inr ⟨hfound, heq.symm⟩
  · intro h
    cases h with
    | inl h =>
      obtain ⟨⟨i, hi⟩, rfl⟩ := h
      exact ⟨some i, hi, rfl⟩
    | inr h => exact ⟨none, h.1, h.2.symm⟩

/-! ## Runs -/

/-- The bindings, unless a call has not returned, and the periods that have been received. -/
abbrev Deliveries (S : Scale) (Obj : Type) := Option (Bindings S Obj) × List Time_Offset

/-- A new object, which is attached as it is advertised, receives periodic interests for its
    device. The list of bindings is the one of its transducer. -/
noncomputable def deliveries : TransitionSystem (Deliveries S Obj) (Interest S) where
  Init r := ∃ s : Bindings S Obj, r = (some s, []) ∧ s.thread o = none
  Enabled _ m := (object o).mode &&& ADVERTISED ≠ 0 ∧ m.mode ≠ DELETE ∧
    m.device = (object o).device ∧ 0 < m.period
  next r m := (r.1.bind fun s => result (s.update object o m), m.period :: r.2)

/-- All calls have returned, and after the first interest there is a thread with a period that
    divides all that have been received. -/
def Serves (r : Deliveries S Obj) : Prop :=
  ∃ s, r.1 = some s ∧ (r.2 ≠ [] → ∃ p, s.thread o = some p ∧ ∀ q ∈ r.2, Divides p q)

/-- No bound region contains the one of the interest, or the first of them that does not answer
    with `false` does, and the thread serves the interest already. -/
def StepServes (r : Deliveries S Obj) (m : Interest S) : Prop :=
  ∀ s, r.1 = some s → (∀ b ∈ s.interesteds, Returns (holds m b) false) ∨
    (FirstPasses (holds m) s.interesteds ∧ ∃ p, s.thread o = some p ∧ Divides p m.period)

variable {r : Deliveries S Obj}

omit [DecidableEq Obj] in
/-- The period of the thread divides all periods so far, in a form in which it may be missing. -/
theorem Serves.dvd (hpositive : ∀ q ∈ r.2, 0 < q) (hserves : Serves o r) (hs : r.1 = some s) :
    ∀ q ∈ r.2, (s.thread o).elim 0 UInt64.toNat ∣ q.toMicrosecond.toNat := by
  intro q hq
  obtain ⟨s', hs', hdivides⟩ := hserves
  obtain ⟨p, hthread, hall⟩ := hdivides (List.ne_nil_of_mem hq)
  cases hs.symm.trans hs'
  rw [hthread]
  exact (divides_iff (hpositive q hq)).mp (hall q hq)

/-- The updater of the object has the new period. -/
theorem insert_thread : (s.insert o m).thread o = s.schedule o m := Function.update_self ..

/-- Where the interest is bound, the thread serves it and all that came before. -/
theorem serves_insert (hpositive : ∀ q ∈ r.2, 0 < q) (hserves : Serves o r) (hs : r.1 = some s)
    (hpos : 0 < m.period) : Serves o (some (s.insert o m), m.period :: r.2) := by
  obtain ⟨p, hp, hvalue⟩ := schedule_eq (s := s) o hpos
  refine ⟨_, rfl, fun _ => ⟨p, (insert_thread o).trans hp, ?_⟩⟩
  rw [List.forall_mem_cons]
  constructor
  · rw [divides_iff hpos, hvalue]
    exact Nat.gcd_dvd_right _ _
  · intro q hq
    rw [divides_iff (hpositive q hq), hvalue]
    exact Nat.dvd_trans (Nat.gcd_dvd_left _ _) (hserves.dvd o hpositive hs q hq)

omit [DecidableEq Obj] in
/-- Where it is not bound, the thread stays as it is, and there has to be one. -/
theorem serves_same_iff (hserves : Serves o r) (hs : r.1 = some s) :
    Serves o (some s, m.period :: r.2) ↔ ∃ p, s.thread o = some p ∧ Divides p m.period := by
  constructor
  · intro ⟨s', hs', hdivides⟩
    cases hs'
    obtain ⟨p, hthread, hall⟩ := hdivides (List.cons_ne_nil _ _)
    exact ⟨p, hthread, hall m.period List.mem_cons_self⟩
  · intro ⟨p, hthread, hnew⟩
    refine ⟨s, rfl, fun _ => ⟨p, hthread, ?_⟩⟩
    rw [List.forall_mem_cons]
    refine ⟨hnew, fun q hq => ?_⟩
    obtain ⟨s', hs', hdivides⟩ := hserves
    obtain ⟨p', hthread', hall⟩ := hdivides (List.ne_nil_of_mem hq)
    cases hs.symm.trans hs'
    cases hthread.symm.trans hthread'
    exact hall q hq

/-- An interest is served exactly under its condition. -/
theorem serves_next_iff (hpositive : ∀ q ∈ r.2, 0 < q) (hserves : Serves o r)
    (hm : (deliveries object o).Enabled r m) :
    Serves o ((deliveries object o).next r m) ↔ StepServes o r m := by
  obtain ⟨hadv, hmode, hdevice, hpos⟩ := hm
  obtain ⟨s, hs, -⟩ := id hserves
  have hnext : (deliveries object o).next r m =
      (result (s.update object o m), m.period :: r.2) := by
    show (r.1.bind _, _) = _
    rw [hs, Option.bind_some]
  have hreturns {s' : Bindings S Obj} (h : Returns (s.update object o m) s') :
      (deliveries object o).next r m = (some s', m.period :: r.2) := by
    rw [hnext, h.result_eq (update_independent object s o m)]
  have hstep : StepServes o r m ↔ (∀ b ∈ s.interesteds, Returns (holds m b) false) ∨
      (FirstPasses (holds m) s.interesteds ∧ ∃ p, s.thread o = some p ∧ Divides p m.period) :=
    ⟨fun h => h s hs, fun h s' hs' => Option.some.inj (hs.symm.trans hs') ▸ h⟩
  rw [hstep]
  by_cases hall : ∀ b ∈ s.interesteds, Returns (holds m b) false
  · -- the interest is bound
    rw [hreturns ((returns_bind object o hadv hmode hdevice).mpr (Or.inr ⟨hall, rfl⟩))]
    exact iff_of_true (serves_insert o hpositive hserves hs hpos) (Or.inl hall)
  · rw [or_iff_right hall]
    by_cases hfirst : FirstPasses (holds m) s.interesteds
    · -- it is contained in a bound region
      rw [hreturns ((returns_bind object o hadv hmode hdevice).mpr (Or.inl ⟨hfirst, rfl⟩)),
        serves_same_iff o hserves hs, and_iff_right hfirst]
    · -- the search does not end
      refine iff_of_false ?_ fun h => hfirst h.1
      intro ⟨s', hs', _⟩
      rw [hnext] at hs'
      have h := (returns_bind object o hadv hmode hdevice).mp (returns_of_result hs')
      cases h with
      | inl h => exact hfirst h.1
      | inr h => exact hall h.1

/-- Periods stay positive. -/
theorem positive_next (hpositive : ∀ q ∈ r.2, 0 < q) (hm : (deliveries object o).Enabled r m) :
    ∀ q ∈ ((deliveries object o).next r m).2, 0 < q := by
  show ∀ q ∈ m.period :: r.2, 0 < q
  rw [List.forall_mem_cons]
  exact ⟨hm.2.2.2, hpositive⟩

/-- The runs in which the thread serves all interests are those in which no interest is contained
    in a bound region without being served already, and all regions that are asked answer. -/
theorem updater_serves_iff (hinit : (deliveries object o).Init r) (ms : List (Interest S))
    (hv : (deliveries object o).Valid r ms) :
    (deliveries object o).Always (Serves o) r ms ↔
      (deliveries object o).Meets (StepServes o) r ms := by
  obtain ⟨s, rfl, -⟩ := hinit
  have hserves : Serves o (some s, []) := ⟨s, rfl, fun hne => absurd rfl hne⟩
  exact TransitionSystem.always_iff_meets (I := fun r => ∀ q ∈ r.2, 0 < q)
    (fun r m h hm => positive_next object o h hm)
    (fun r m h hserves hm => serves_next_iff object o h hserves hm) (by simp) hserves hv

end Interests

/-- An interest in device 0 with a period. -/
def every (period : Time_Offset) : Interest .CM_16 :=
  Interest.new { center := {}, radius := 10, t0 := 0, t1 := 100 } 0 0 1 0 0 period

/-- The interests of the example can come at any time. -/
theorem every_enabled {period : Time_Offset} (hpos : 0 < period)
    (r : Deliveries .CM_16 Bool) : (deliveries twoObjects false).Enabled r (every period) :=
  ⟨twoObjects_advertised false, by show (1 : Code) ≠ DELETE; decide, rfl, hpos⟩

/-- The first interest is bound, and a second one with the same region is contained. -/
theorem next_every (period : Time_Offset) :
    (deliveries twoObjects false).next (some {}, []) (every period) =
      (some (({} : Bindings .CM_16 Bool).insert false (every period)), [period]) := by
  have hreturns : Returns (({} : Bindings .CM_16 Bool).update twoObjects false (every period))
      (({} : Bindings .CM_16 Bool).insert false (every period)) := ⟨0, rfl⟩
  exact Prod.ext (hreturns.result_eq (update_independent twoObjects {} false (every period))) rfl

/-- The region contains itself, whatever the periods are. -/
theorem holds_every (period period' : Time_Offset) :
    Returns (holds (every period') (Binding.new (every period))) true := by
  have ht : (every period').region.t0 ≤ (every period').region.t1 := by
    show (0 : UInt64) ≤ 100
    decide
  exact (every period').region.contains_self ht

/-- Two interests of which one has twice the period. -/
theorem updater_serves_example :
    (deliveries twoObjects false).Always (Serves false) (some {}, []) [every 6, every 12] := by
  refine (updater_serves_iff twoObjects false ⟨{}, rfl, rfl⟩ [every 6, every 12]
    ⟨every_enabled (by decide) _, every_enabled (by decide) _, trivial⟩).mpr ⟨?_, ?_, trivial⟩
  · intro s hs
    cases hs
    exact Or.inl (by simp)
  · intro s hs
    rw [next_every] at hs
    cases hs
    exact Or.inr ⟨⟨[], _, [], rfl, by simp, holds_every 6 12⟩, 6, rfl, by rw [Divides]; decide⟩

/-- Periods of 4 and 6, for the same region: the thread keeps the first one. -/
theorem not_updater_serves :
    let r : Deliveries .CM_16 Bool := (some {}, [])
    (deliveries twoObjects false).Init r ∧
      (deliveries twoObjects false).Valid r [every 4, every 6] ∧
      ¬ (deliveries twoObjects false).Always (Serves false) r [every 4, every 6] := by
  refine ⟨⟨{}, rfl, rfl⟩, ⟨every_enabled (by decide) _, every_enabled (by decide) _, trivial⟩, ?_⟩
  intro ⟨_, hfirst, hsecond⟩
  rw [TransitionSystem.Always, serves_next_iff twoObjects false (by simp [next_every]) hfirst
    (every_enabled (by decide) _), next_every] at hsecond
  cases hsecond _ rfl with
  | inl hnone =>
    have hfalse := hnone (Binding.new (every 4)) (List.mem_singleton.mpr rfl)
    exact Bool.false_ne_true (hfalse.unique (holds_independent _ _) (holds_every 4 6))
  | inr hserved =>
    obtain ⟨-, p, hthread, hdivides⟩ := hserved
    cases (insert_thread false).symm.trans hthread
    rw [Divides] at hdivides
    exact absurd hdivides (by decide)

end SmartData

end Epos
