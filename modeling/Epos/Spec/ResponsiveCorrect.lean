import Epos.ForStd.TransitionSystem
import Epos.SmartData.Responsive
import Epos.Spec.SpaceCorrect

/-!
# Bound interests

An interest that is bound is bound once more by every object with another device, and no interest
is ever revoked: with its own device the first comparison of two regions does not end, and with
another one nothing is compared.
-/

namespace Epos

namespace SmartData

open Fuel Epos.Geometry

variable {S : Scale}

/-! ## Tests on regions -/

/-- The test of a region does not depend on the fuel. -/
theorem Region.contains_independent (r : Region S) (st : Spacetime S) :
    Independent (r.contains st) := by
  intro n b hb
  rw [Region.contains] at hb ⊢
  split at hb
  · next hin =>
    rw [if_pos hin]
    exact Geometry.contains_independent _ _ n b hb
  · next hout => rw [if_neg hout, hb]

/-- `operator==` never returns. -/
theorem Region.eq_none (r r' : Region S) (fuel : Nat) : r.eq r' fuel = none := by
  induction fuel with
  | zero => rfl
  | succ fuel ih => exact ih

/-! ## Searches -/

/-- The first binding for which the test does not return `false`, and it returns `true`. -/
def FirstPasses (test : Binding S → Nat → Option Bool) (l : List (Binding S)) : Prop :=
  ∃ l₁ b l₂, l = l₁ ++ b :: l₂ ∧ (∀ x ∈ l₁, Returns (test x) false) ∧ Returns (test b) true

section Search

variable {test : Binding S → Nat → Option Bool} {l : List (Binding S)}

/-- A search with such tests does not depend on the fuel. -/
theorem search_independent (htest : ∀ b, Independent (test b)) (l : List (Binding S)) :
    Independent (search test l) := by
  induction l with
  | nil => exact independent_const _
  | cons b rest ih =>
    refine (htest b).bind fun passes => ?_
    cases passes with
    | true => exact independent_const _
    | false => exact ih.map _

/-- One step of the search. -/
theorem returns_search_cons (htest : ∀ b, Independent (test b)) {b : Binding S}
    {found : Option Nat} : Returns (search test (b :: l)) found ↔
      (Returns (test b) true ∧ found = some 0) ∨
      (Returns (test b) false ∧ ∃ rest, Returns (search test l) rest ∧
        found = rest.map (· + 1)) := by
  have hstep (passes : Bool) : Independent fun fuel =>
      if passes then some (some 0) else (search test l fuel).map (Option.map (· + 1)) := by
    cases passes with
    | true => exact independent_const _
    | false => exact (search_independent htest l).map _
  refine (returns_bind_iff (htest b) hstep).trans ?_
  constructor
  · intro ⟨passes, hpasses, hrest⟩
    cases passes with
    | true => exact Or.inl ⟨hpasses, (Option.some.inj (returns_const_iff.mp hrest)).symm⟩
    | false =>
      obtain ⟨rest, hrest, hfound⟩ := returns_map_iff.mp hrest
      exact Or.inr ⟨hpasses, rest, hrest, hfound.symm⟩
  · intro h
    cases h with
    | inl h => exact ⟨true, h.1, returns_const_iff.mpr (congrArg some h.2.symm)⟩
    | inr h =>
      obtain ⟨hpasses, rest, hrest, hfound⟩ := h
      exact ⟨false, hpasses, returns_map_iff.mpr ⟨rest, hrest, hfound.symm⟩⟩

/-- The search finds the first that passes. -/
theorem returns_search_iff (htest : ∀ b, Independent (test b)) :
    (∃ i, Returns (search test l) (some i)) ↔ FirstPasses test l := by
  induction l with
  | nil =>
    refine iff_of_false ?_ ?_
    · intro ⟨i, hi⟩
      cases returns_const_iff.mp hi
    · intro ⟨l₁, b, l₂, heq, _⟩
      simp at heq
  | cons b rest ih =>
    constructor
    · intro ⟨i, hi⟩
      cases (returns_search_cons htest).mp hi with
      -- the first box passes its own test
      | inl h => exact ⟨[], b, rest, rfl, by simp, h.1⟩
      -- it fails, and the search goes on in the rest
      | inr h =>
        obtain ⟨hfalse, found, hfound, heq⟩ := h
        obtain ⟨j, rfl⟩ : ∃ j, found = some j := by
          cases found with
          | none => cases heq
          | some j => exact ⟨j, rfl⟩
        obtain ⟨l₁, x, l₂, hl, hmisses, hpasses⟩ := ih.mp ⟨j, hfound⟩
        refine ⟨b :: l₁, x, l₂, by rw [hl]; rfl, ?_, hpasses⟩
        intro y hy
        cases List.mem_cons.mp hy with
        | inl heq => exact heq ▸ hfalse
        | inr hmem => exact hmisses y hmem
    · intro ⟨l₁, x, l₂, hl, hmisses, hpasses⟩
      cases l₁ with
      | nil =>
        obtain ⟨rfl, rfl⟩ := List.cons.inj hl
        exact ⟨0, (returns_search_cons htest).mpr (Or.inl ⟨hpasses, rfl⟩)⟩
      | cons y l₁ =>
        obtain ⟨rfl, rfl⟩ := List.cons.inj hl
        obtain ⟨j, hj⟩ := ih.mpr
          ⟨l₁, x, l₂, rfl, fun z hz => hmisses z (List.mem_cons_of_mem _ hz), hpasses⟩
        exact ⟨j + 1, (returns_search_cons htest).mpr
          (Or.inr ⟨hmisses b List.mem_cons_self, some j, hj, rfl⟩)⟩

/-- A test that always answers finds what passes it. -/
theorem firstPasses_of_answers (hanswer : ∀ b ∈ l, ∃ passes, Returns (test b) passes)
    (hex : ∃ b ∈ l, Returns (test b) true) : FirstPasses test l := by
  induction l with
  | nil =>
    obtain ⟨b, hb, _⟩ := hex
    cases hb
  | cons b rest ih =>
    obtain ⟨passes, hpasses⟩ := hanswer b List.mem_cons_self
    cases passes with
    | true => exact ⟨[], b, rest, rfl, by simp, hpasses⟩
    | false =>
      -- a test that both passes and fails counts as passed
      by_cases hhead : Returns (test b) true
      · exact ⟨[], b, rest, rfl, by simp, hhead⟩
      · obtain ⟨x, hx, htrue⟩ := hex
        have hrest : x ∈ rest := by
          cases List.mem_cons.mp hx with
          | inl heq => exact absurd (heq ▸ htrue) hhead
          | inr hmem => exact hmem
        obtain ⟨l₁, y, l₂, heq, hmisses, hy⟩ :=
          ih (fun z hz => hanswer z (List.mem_cons_of_mem _ hz)) ⟨x, hrest, htrue⟩
        refine ⟨b :: l₁, y, l₂, by rw [heq]; rfl, ?_, hy⟩
        intro z hz
        cases List.mem_cons.mp hz with
        | inl heq => exact heq ▸ hpasses
        | inr hmem => exact hmisses z hmem

end Search

/-! ## Messages -/

section Messages

variable {Obj : Type} [DecidableEq Obj] (object : Obj → Responsive)
variable {s s' : Bindings S Obj} {o : Obj} {m : Interest S}

omit [DecidableEq Obj] in
/-- The test of a binding does not depend on the fuel. -/
theorem covers_independent (o : Obj) (m : Interest S) (b : Binding S) :
    Independent (Bindings.covers object o m b) := by
  intro n passes h
  rw [Bindings.covers] at h ⊢
  split at h
  · next hdevice =>
    rw [if_pos hdevice]
    exact b.region.contains_independent _ n passes h
  · next hother => rw [if_neg hother, h]

omit [DecidableEq Obj] in
/-- The test of `unbind` passes for no binding. -/
theorem matching_eq (o : Obj) (m : Interest S) (b : Binding S) (fuel : Nat) :
    Bindings.matching object o m b fuel =
      if m.device = (object o).device then none else some false := by
  rw [Bindings.matching, Region.eq_none]

/-- The binding was made for the device and the region of an interest. -/
def Binding.IsFor (b : Binding S) (m : Interest S) : Prop :=
  b.device = m.device ∧ b.region = m.region

/-- What a message should do: an interest that is bound is not bound again, and the binding of one
    that is deleted is removed. -/
structure Correct (s : Bindings S Obj) (o : Obj) (m : Interest S) : Prop where
  idempotent : m.mode ≠ DELETE → Binding.new m ∈ s.interesteds →
    ∃ s', Returns (s.update object o m) s' ∧ s'.interesteds = s.interesteds
  removes : m.mode = DELETE → (∃ b ∈ s.interesteds, b.IsFor m) →
    ∃ s' i b, Returns (s.update object o m) s' ∧ s.interesteds[i]? = some b ∧ b.IsFor m ∧
      s'.interesteds = s.interesteds.eraseIdx i

/-- An interest that is bound comes to an object with its device, where the regions in front of
    one that contains it all answer, and none that is bound is deleted. -/
structure Condition (s : Bindings S Obj) (o : Obj) (m : Interest S) : Prop where
  contained : m.mode ≠ DELETE → Binding.new m ∈ s.interesteds →
    m.device = (object o).device ∧
      FirstPasses (fun b => b.region.contains m.region.toSpacetime) s.interesteds
  keeps : m.mode = DELETE → ¬ ∃ b ∈ s.interesteds, b.IsFor m

omit [DecidableEq Obj] in
/-- The first binding for the device and the region. -/
theorem firstPasses_covers {l : List (Binding S)} :
    FirstPasses (Bindings.covers object o m) l ↔
      m.device = (object o).device ∧
        FirstPasses (fun b => b.region.contains m.region.toSpacetime) l := by
  by_cases hdevice : m.device = (object o).device
  · have heq : Bindings.covers object o m =
        fun b => b.region.contains m.region.toSpacetime := by
      funext b fuel
      rw [Bindings.covers, if_pos hdevice]
    rw [heq, and_iff_right hdevice]
  · refine iff_of_false ?_ fun h => hdevice h.1
    intro ⟨l₁, b, l₂, _, _, n, hn⟩
    rw [Bindings.covers, if_neg hdevice] at hn
    cases hn

/-- When an interest is bound. -/
theorem returns_update_bind (hadv : (object o).mode &&& ADVERTISED ≠ 0) (hmode : m.mode ≠ DELETE) :
    Returns (s.update object o m) s' ↔
      ∃ found, Returns (search (Bindings.covers object o m) s.interesteds) found ∧
        (match found with
          | some _ => s
          | none => s.insert o m) = s' := by
  have heq : s.update object o m = s.bind object o m := by
    funext fuel
    rw [Bindings.update, if_pos hadv, if_neg hmode]
  rw [heq]
  exact returns_map_iff

/-- A bound interest is not bound again exactly when a region is found that contains it. -/
theorem bind_idempotent_iff (hadv : (object o).mode &&& ADVERTISED ≠ 0) (hmode : m.mode ≠ DELETE) :
    (∃ s', Returns (s.update object o m) s' ∧ s'.interesteds = s.interesteds) ↔
      m.device = (object o).device ∧
        FirstPasses (fun b => b.region.contains m.region.toSpacetime) s.interesteds := by
  rw [← firstPasses_covers, ← returns_search_iff (covers_independent object o m)]
  constructor
  · intro ⟨s', hreturns, hsame⟩
    obtain ⟨found, hfound, heq⟩ := (returns_update_bind object hadv hmode).mp hreturns
    cases found with
    | some i => exact ⟨i, hfound⟩
    | none =>
      -- there is a binding more
      have hlength := congrArg List.length hsame
      rw [← heq] at hlength
      change (s.interesteds ++ [Binding.new m]).length = s.interesteds.length at hlength
      rw [List.length_append, List.length_singleton] at hlength
      omega
  · intro ⟨i, hi⟩
    exact ⟨s, (returns_update_bind object hadv hmode).mpr ⟨some i, hi, rfl⟩, rfl⟩

/-- The result does not depend on the fuel. -/
theorem update_independent (s : Bindings S Obj) (o : Obj) (m : Interest S) :
    Independent (s.update object o m) := by
  have hmatching (b : Binding S) : Independent (Bindings.matching object o m b) := by
    intro n passes h
    rwa [matching_eq] at h ⊢
  intro n s' h
  rw [Bindings.update] at h ⊢
  split at h
  · next hadv =>
    rw [if_pos hadv]
    split at h
    · next hmode =>
      rw [if_pos hmode]
      exact (search_independent hmatching s.interesteds).map _ n s' h
    · next hmode =>
      rw [if_neg hmode]
      exact (search_independent (covers_independent object o m) s.interesteds).map _ n s' h
  · next hadv => rw [if_neg hadv, h]

/-- The search of `unbind` finds nothing or does not end. -/
theorem update_delete (hadv : (object o).mode &&& ADVERTISED ≠ 0) (hmode : m.mode = DELETE)
    (hreturns : Returns (s.update object o m) s') :
    s' = s ∧ (m.device = (object o).device → s.interesteds = []) := by
  obtain ⟨fuel, hfuel⟩ := hreturns
  rw [Bindings.update, if_pos hadv, if_pos hmode, Bindings.unbind] at hfuel
  obtain ⟨found, hfound, heq⟩ := Option.map_eq_some_iff.mp hfuel
  -- the interest of the same device would be deleted, whatever is behind it
  by_cases hdevice : m.device = (object o).device
  · cases hl : s.interesteds with
    | nil =>
      rw [hl] at hfound
      cases Option.some.inj hfound
      exact ⟨heq.symm, fun _ => rfl⟩
    | cons b rest =>
      rw [hl, search, matching_eq, if_pos hdevice] at hfound
      cases hfound
  · -- without the same device no box is tested
    have hnone (l : List (Binding S)) :
        search (Bindings.matching object o m) l fuel = some none := by
      induction l with
      | nil => rfl
      | cons b rest ih =>
        rw [search, matching_eq, if_neg hdevice, Option.bind_some, ih]
        rfl
    rw [hnone] at hfound
    cases Option.some.inj hfound
    exact ⟨heq.symm, fun h => absurd h hdevice⟩

/-- An interest is handled right exactly under the condition. -/
theorem correct_iff (hadv : (object o).mode &&& ADVERTISED ≠ 0) :
    Correct object s o m ↔ Condition object s o m := by
  constructor
  · intro h
    refine ⟨fun hmode hbound => ?_, fun hmode hbound => ?_⟩
    · exact (bind_idempotent_iff object hadv hmode).mp (h.idempotent hmode hbound)
    · obtain ⟨s', i, b, hreturns, hi, -, herase⟩ := h.removes hmode hbound
      obtain ⟨rfl, -⟩ := update_delete object hadv hmode hreturns
      obtain ⟨hlt, -⟩ := List.getElem?_eq_some_iff.mp hi
      have hlength := congrArg List.length herase
      rw [List.length_eraseIdx_of_lt hlt] at hlength
      omega
  · intro h
    refine ⟨fun hmode hbound => ?_, fun hmode hbound => absurd hbound (h.keeps hmode)⟩
    exact (bind_idempotent_iff object hadv hmode).mpr (h.contained hmode hbound)

/-- A region that is not empty in time contains its center. -/
theorem Region.contains_self (r : Region S) (ht : r.t0 ≤ r.t1) :
    Returns (r.contains r.toSpacetime) true := by
  have hzero : r.center.squaredDistance r.toSpacetime.toPoint = 0 := by
    simp [Point.squaredDistance, gap, Region.toSpacetime]
  have hdistance : r.center.DistanceCorrect r.toSpacetime.toPoint := by
    rw [distance_correct_iff S.fits, hzero]
    positivity
  have hsphere : r.toSphere.ContainsCorrect r.toSpacetime.toPoint := hdistance.contains
  obtain ⟨b, hb, hiff⟩ := Region.containsCorrect_of_sphere hsphere
  have htrue : b = true := by
    rw [hiff, hzero, Nat.sqrt_zero]
    exact ⟨⟨UInt64.le_refl r.t0, ht⟩, Nat.zero_le _⟩
  exact htrue ▸ hb

/-- An interest is bound once by its own device, if all regions answer. -/
theorem bind_idempotent (hadv : (object o).mode &&& ADVERTISED ≠ 0) (hmode : m.mode ≠ DELETE)
    (hdevice : m.device = (object o).device) (ht : m.region.t0 ≤ m.region.t1)
    (hbound : Binding.new m ∈ s.interesteds)
    (hanswer : ∀ b ∈ s.interesteds,
      ∃ answer, Returns (b.region.contains m.region.toSpacetime) answer) :
    ∃ s', Returns (s.update object o m) s' ∧ s'.interesteds = s.interesteds := by
  refine (bind_idempotent_iff object hadv hmode).mpr ⟨hdevice, firstPasses_of_answers hanswer ?_⟩
  exact ⟨Binding.new m, hbound, m.region.contains_self ht⟩

/-! ## Runs -/

/-- The objects that are attached receive messages, until one of them does not return. -/
noncomputable def system (object : Obj → Responsive) :
    TransitionSystem (Option (Bindings S Obj)) (Obj × Interest S) where
  Init r := ∃ s : Bindings S Obj, r = some s ∧ s.interesteds = [] ∧ s.thread = fun _ => none
  Enabled _ e := (object e.1).mode &&& ADVERTISED ≠ 0
  next r e := r.bind fun s => result (s.update object e.1 e.2)

/-- Every message does what it should. -/
def StepCorrect (r : Option (Bindings S Obj)) (e : Obj × Interest S) : Prop :=
  ∀ s, r = some s → Correct object s e.1 e.2

def StepCondition (r : Option (Bindings S Obj)) (e : Obj × Interest S) : Prop :=
  ∀ s, r = some s → Condition object s e.1 e.2

/-- The runs in which binding is idempotent and revoking removes a binding are those in which all
    bound interests come to their own device and none is revoked. -/
theorem interests_correct_iff (r : Option (Bindings S Obj)) (as : List (Obj × Interest S))
    (hv : (system object).Valid r as) :
    (system object).Meets (StepCorrect object) r as ↔
      (system object).Meets (StepCondition object) r as := by
  refine TransitionSystem.meets_iff_meets_inv (I := fun _ => True) (fun _ _ _ _ _ => trivial) ?_
    trivial hv
  intro r e _ hadv
  constructor
  · intro h s hs
    exact (correct_iff object hadv).mp (h s hs)
  · intro h s hs
    exact (correct_iff object hadv).mpr (h s hs)

end Messages

/-! ## Two objects -/

/-- An object for each of the devices 0 and 1. -/
def twoObjects (o : Bool) : Responsive := { device := if o then 1 else 0, mode := ADVERTISED }

/-- An interest in device 0, or its revocation. -/
def nearby (mode : Code) : Interest .CM_16 :=
  Interest.new { center := {}, radius := 10, t0 := 0, t1 := 100 } 0 0 mode 0 0 0

/-- Both objects of the example are advertised. -/
theorem twoObjects_advertised (o : Bool) : (twoObjects o).mode &&& ADVERTISED ≠ 0 := by
  cases o <;> decide

/-- The same interest twice. -/
theorem interests_correct_iff_twice :
    (system twoObjects).Meets (StepCorrect twoObjects) (some {})
        [(false, nearby 1), (false, nearby 1)] ↔
      (system twoObjects).Meets (StepCondition twoObjects) (some {})
        [(false, nearby 1), (false, nearby 1)] :=
  interests_correct_iff twoObjects (some {}) [(false, nearby 1), (false, nearby 1)]
    ⟨twoObjects_advertised false, twoObjects_advertised false, trivial⟩

/-- The list after the interest has been received. -/
theorem next_nearby :
    (system twoObjects).next (some {}) (false, nearby 1) =
      some (({} : Bindings .CM_16 Bool).insert false (nearby 1)) := by
  have hreturns : Returns (({} : Bindings .CM_16 Bool).update twoObjects false (nearby 1))
      (({} : Bindings .CM_16 Bool).insert false (nearby 1)) := ⟨0, rfl⟩
  exact hreturns.result_eq (update_independent twoObjects {} false (nearby 1))

/-- The object with the other device binds it once more, and its own device does not revoke it. -/
theorem not_interests_correct :
    ((system twoObjects).Valid (some {}) [(false, nearby 1), (true, nearby 1)] ∧
      ¬ (system twoObjects).Meets (StepCorrect twoObjects) (some {})
        [(false, nearby 1), (true, nearby 1)]) ∧
    ((system twoObjects).Valid (some {}) [(false, nearby 1), (false, nearby DELETE)] ∧
      ¬ (system twoObjects).Meets (StepCorrect twoObjects) (some {})
        [(false, nearby 1), (false, nearby DELETE)]) := by
  refine ⟨⟨⟨twoObjects_advertised false, twoObjects_advertised true, trivial⟩, ?_⟩,
    ⟨⟨twoObjects_advertised false, twoObjects_advertised false, trivial⟩, ?_⟩⟩
  · intro ⟨_, hsecond, _⟩
    have hcorrect := hsecond _ next_nearby
    have hcondition := (correct_iff twoObjects (twoObjects_advertised true)).mp hcorrect
    have hcontained := hcondition.contained (by decide) (List.mem_singleton.mpr rfl)
    exact absurd hcontained.1 (by decide)
  · intro ⟨_, hsecond, _⟩
    have hcorrect := hsecond _ next_nearby
    have hcondition := (correct_iff twoObjects (twoObjects_advertised false)).mp hcorrect
    exact hcondition.keeps rfl ⟨_, List.mem_singleton.mpr rfl, rfl, rfl⟩

end SmartData

end Epos
