import Epos.Kernel.Registry
import Epos.Spec.SystemCeiling

/-!
# What the registries of resources list

A registry lists the live resources as long as they are registered when they are
constructed and destroyed in the opposite order, since a destructor drops the last
entry whatever object it is called on. The destructor of an MSRP resource
moreover drops an entry of the registry of its base class, where it never was.
-/

namespace Epos

namespace Registry

variable {r : Registry} {live l : List Sid} {s : Sid}

/-- The slots up to the counter hold exactly the live objects. -/
def Exact (r : Registry) (live : List Sid) : Prop :=
  {x | ∃ i, 0 ≤ i ∧ i < r.count ∧ r.slot i = x} = {x | ∃ s ∈ live, some s = x}

def CountInRange (r : Registry) : Prop := 0 ≤ r.count ∧ r.count ≤ maxResources

/-- The slots up to the counter list the live objects in the order of construction. -/
structure Lists (r : Registry) (live : List Sid) : Prop where
  count : r.count = live.length
  slot : ∀ i : Nat, i < live.length → r.slot i = live[i]?

/-- An empty registry lists nothing. -/
theorem lists_nil : ({} : Registry).Lists [] :=
  ⟨rfl, fun i hi => absurd hi (Nat.not_lt_zero i)⟩

/-- A new resource comes last. -/
theorem Lists.register (h : r.Lists live) (s : Sid) : (r.register s).Lists (live ++ [s]) := by
  constructor
  · show r.count + 1 = _
    rw [h.count, List.length_append, List.length_singleton]
    omega
  · intro i hi
    rw [List.length_append, List.length_singleton] at hi
    show Function.update r.slot r.count (some s) i = _
    by_cases heq : i = live.length
    · rw [h.count, heq, Function.update_self]
      simp
    · have hlt : i < live.length := by omega
      rw [h.count, Function.update_of_ne (by omega), h.slot i hlt,
        List.getElem?_append_left hlt]

/-- The last resource is taken off. -/
theorem Lists.unregister (h : r.Lists (l ++ [s])) : r.unregister.Lists l := by
  have hcount := h.count
  rw [List.length_append, List.length_singleton] at hcount
  constructor
  · show r.count - 1 = _
    omega
  · intro i hi
    show Function.update r.slot (r.count - 1) none i = _
    rw [Function.update_of_ne (by omega), h.slot i (by simp; omega),
      List.getElem?_append_left hi]

/-- What is listed is what is scanned. -/
theorem Lists.exact (h : r.Lists live) : r.Exact live := by
  ext x
  constructor
  · rintro ⟨i, hi, hlt, rfl⟩
    obtain ⟨n, rfl⟩ := Int.eq_ofNat_of_zero_le hi
    have hn : n < live.length := by
      have := h.count
      omega
    exact ⟨live[n], List.getElem_mem hn, by rw [h.slot n hn, List.getElem?_eq_getElem hn]⟩
  · rintro ⟨s, hs, rfl⟩
    obtain ⟨n, hn, heq⟩ := List.getElem_of_mem hs
    refine ⟨n, Int.natCast_nonneg n, ?_, ?_⟩
    · rw [h.count]
      exact Int.ofNat_lt.mpr hn
    · rw [h.slot n hn, List.getElem?_eq_getElem hn, heq]

/-- The count stays in its range. -/
theorem Lists.countInRange (h : r.Lists live) (hlen : live.length ≤ maxResources) :
    r.CountInRange := by
  unfold CountInRange
  rw [h.count]
  omega

/-- An object that is not registered is missing. -/
theorem Lists.not_exact_append (h : r.Lists live) (hs : s ∉ live) :
    ¬r.Exact (live ++ [s]) := by
  intro hex
  have hmem : some s ∈ {x | ∃ s' ∈ live ++ [s], some s' = x} := ⟨s, by simp, rfl⟩
  rw [← hex, show _ = _ from h.exact] at hmem
  obtain ⟨s', hs', heq⟩ := hmem
  exact hs (Option.some.inj heq ▸ hs')

/-- Where `s` is not the last one, its destructor drops another object. -/
theorem Lists.not_exact_erase (h : r.Lists live) (hnodup : live.Nodup) (hs : s ∈ live)
    (hlast : live.getLast? ≠ some s) : ¬r.unregister.Exact (live.erase s) := by
  intro hex
  obtain ⟨l, x, rfl⟩ := (List.eq_nil_or_concat' live).resolve_left (List.ne_nil_of_mem hs)
  have hne : x ≠ s := fun heq => hlast (by simp [heq])
  have hx : some x ∈ {y | ∃ s' ∈ (l ++ [x]).erase s, some s' = y} :=
    ⟨x, (List.mem_erase_of_ne hne).mpr (by simp), rfl⟩
  rw [← hex, show _ = _ from h.unregister.exact] at hx
  obtain ⟨x', hx', heq⟩ := hx
  rw [Option.some.inj heq] at hx'
  exact (List.nodup_append.mp hnodup).2.2 x hx' x (by simp) rfl

/-! ## Updates -/

/-- `updateSystemCeiling` stays below the counter. -/
theorem Lists.scanned_eq (h : r.Lists live) :
    r.scanned = (List.range live.length).map fun i : Nat => (i : Int) := by
  unfold Registry.scanned
  rw [h.count]
  cases live with
  | nil => rfl
  | cons s rest =>
    have hlen : (((rest.length + 1 : Nat) : Int) - 1).toNat = rest.length := by omega
    rw [if_neg (by simp; omega), List.length_cons, hlen, List.range_succ_eq_map, List.map_cons,
      List.map_map]
    congr 1
    refine List.map_congr_left fun i _ => ?_
    show (1 + i : Int) = ((i + 1 : Nat) : Int)
    omega

/-- It finds the live resources. -/
theorem Lists.scanned (h : r.Lists live) :
    List.Forall₂ (fun i s => r.slot i = some s) r.scanned live := by
  rw [h.scanned_eq, List.forall₂_iff_get]
  refine ⟨by simp, fun i _ hi => ?_⟩
  simp only [List.get_eq_getElem, List.getElem_map, List.getElem_range]
  rw [h.slot i hi, List.getElem?_eq_getElem hi]

/-- The system ceiling that is read through the registry is that of the live
    resources, and no null pointer is followed. -/
theorem Lists.systemCeiling (h : r.Lists live) (k : Kernel) (cpu : Nat) :
    r.systemCeiling (k.ceiling · cpu) = some (k.maxResource cpu live) := by
  unfold Registry.systemCeiling
  have hscanned := h.scanned
  clear h
  generalize r.scanned = is at hscanned ⊢
  cases hscanned with
  | nil => rfl
  | @cons _ s _ _ hfirst hrest =>
    simp only [hfirst, Option.bind_eq_bind, Option.bind_some, Kernel.maxResource]
    -- over the indices that are left and their resources, for any maximum so far
    generalize k.ceiling s cpu = m
    induction hrest generalizing m with
    | nil => rfl
    | cons hs _ ih =>
      simp only [List.foldlM_cons, List.foldl_cons, hs, Option.bind_eq_bind, Option.bind_some,
        Option.pure_def]
      exact ih _

end Registry

namespace Registries

variable {g : Registries} {cpus : Nat}

/-- The registries are exact and no counter leaves its array. -/
structure Sound (g : Registries) : Prop where
  srp : g.resources.Exact g.srp
  msrp : g.globalResources.Exact g.msrp
  resources : g.resources.CountInRange
  baseResources : g.baseResources.CountInRange
  globalResources : g.globalResources.CountInRange

/-- Every index that the operation uses is in its array. -/
def InBounds (g : Registries) (a : RegistryAction) : Prop :=
  ∀ u ∈ g.uses a, 0 ≤ u.2 ∧ u.2 < g.size u.1

/-- Resources are constructed with their tasks, of which there is room for all. An SRP
    resource is destroyed when it is the youngest that is alive, an MSRP one never. -/
def KeepsOrder (g : Registries) : RegistryAction → Prop
  | .constructSrp _ nTasks | .constructMsrp _ nTasks => nTasks ≤ maxTasks
  | .constructSrpCeilings _ | .destroyMsrp _ => False
  | .destroySrp s => g.srp.getLast? = some s
  | .updateSrp | .updateMsrp => True

structure Inv (g : Registries) : Prop where
  resources : g.resources.Lists g.srp
  globalResources : g.globalResources.Lists g.msrp
  baseResources : g.baseResources.count = 0
  nodup : g.srp.Nodup
  srp_le : g.srp.length ≤ maxResources
  msrp_le : g.msrp.length ≤ maxResources

/-- The invariant holds at the beginning. -/
theorem inv_init : ({ cpus := cpus } : Registries).Inv :=
  ⟨Registry.lists_nil, Registry.lists_nil, rfl, List.nodup_nil, Nat.zero_le _, Nat.zero_le _⟩

/-- The invariant gives what is claimed of every state. -/
theorem Inv.sound (h : g.Inv) : g.Sound where
  srp := h.resources.exact
  msrp := h.globalResources.exact
  resources := h.resources.countInRange h.srp_le
  baseResources := by
    unfold Registry.CountInRange
    rw [h.baseResources]
    decide
  globalResources := h.globalResources.countInRange h.msrp_le

/-- A step in order keeps the invariant. -/
theorem Inv.step (h : g.Inv) {a : RegistryAction} (ha : g.CanAct a) (hc : g.KeepsOrder a) :
    (g.step a).Inv := by
  have hfresh {l : List Sid} {s : Sid} (hs : s ∉ l) (hl : l.Nodup) : (l ++ [s]).Nodup :=
    List.nodup_append.mpr ⟨hl, by simp, fun x hx y hy heq => hs (by simp_all)⟩
  have hlen {l : List Sid} {s : Sid} (hl : l.length < maxResources) :
      (l ++ [s]).length ≤ maxResources := by
    rw [List.length_append, List.length_singleton]
    exact hl
  cases a with
  | constructSrp s n =>
    exact { h with
      resources := h.resources.register s
      nodup := hfresh ha.1 h.nodup
      srp_le := hlen ha.2.2 }
  | constructSrpCeilings s => exact hc.elim
  | destroySrp s =>
    -- `unregister` takes the last resource off, which is this one.
    obtain ⟨l, hl⟩ := List.getLast?_eq_some_iff.mp (show g.srp.getLast? = some s from hc)
    have hnodup := h.nodup
    have hle := h.srp_le
    rw [hl] at hnodup hle
    have herase : g.srp.erase s = l := by
      have hs : s ∉ l := fun hs => (List.nodup_append.mp hnodup).2.2 s hs s (by simp) rfl
      rw [hl, List.erase_append_right _ hs]
      simp
    have hlists : g.resources.unregister.Lists l := Registry.Lists.unregister (hl ▸ h.resources)
    exact { h with
      resources := show g.resources.unregister.Lists (g.srp.erase s) by rwa [herase]
      nodup := h.nodup.erase s
      srp_le := (List.erase_sublist).length_le.trans h.srp_le }
  | constructMsrp s n =>
    exact { h with
      globalResources := h.globalResources.register s
      msrp_le := hlen ha.2.2 }
  | destroyMsrp s => exact hc.elim
  | updateSrp => exact h
  | updateMsrp => exact h

/-- The indices of the constructors. -/
theorem inBounds_storeTasks {n : Int} :
    (∀ u ∈ storeTasks n, 0 ≤ u.2 ∧ u.2 < g.size u.1) ↔ n ≤ maxTasks := by
  simp only [storeTasks, List.forall_mem_map, List.mem_range]
  constructor
  · intro h
    by_contra hlt
    have := (h (maxTasks : Nat) (by omega)).2
    simp [Registries.size] at this
  · intro hle i hi
    refine ⟨Int.natCast_nonneg i, ?_⟩
    show (i : Int) < (maxTasks : Nat)
    omega

/-- What is scanned is inside of the table. -/
theorem inBounds_scanned {r : Registry} {live : List Sid} (h : r.Lists live)
    (hlen : live.length ≤ maxResources) :
    ∀ i ∈ r.scanned, 0 ≤ i ∧ i < (maxResources : Nat) := by
  rw [h.scanned_eq, List.forall_mem_map]
  intro i hi
  have := List.mem_range.mp hi
  omega

/-- Out of an ordered state, an operation keeps the registries sound and stays in
    bounds exactly if it keeps the order. -/
theorem Inv.step_iff (h : g.Inv) {a : RegistryAction} (ha : g.CanAct a) :
    (g.step a).Sound ∧ g.InBounds a ↔ g.KeepsOrder a := by
  constructor
  · intro ⟨hs, hb⟩
    cases a with
    | constructSrp s n =>
      exact inBounds_storeTasks.mp fun u hu => hb u (List.mem_append_left _ hu)
    | constructSrpCeilings s => exact h.resources.not_exact_append ha.1 hs.srp
    | destroySrp s =>
      by_contra hlast
      exact h.resources.not_exact_erase h.nodup ha hlast hs.srp
    | constructMsrp s n =>
      exact inBounds_storeTasks.mp fun u hu => hb u (List.mem_append_left _ hu)
    | destroyMsrp s =>
      -- the counter of the base class is zero and would become negative
      have hcount := hs.baseResources.1
      change 0 ≤ g.baseResources.count - 1 at hcount
      rw [h.baseResources] at hcount
      omega
    | updateSrp => trivial
    | updateMsrp => trivial
  · intro hc
    -- the counters are the lengths of the lists, so only the bounds are left
    refine ⟨(h.step ha hc).sound, ?_⟩
    have hr := h.resources.count
    have hg := h.globalResources.count
    cases a with
    | constructSrp s n =>
      have hlt : g.srp.length < maxResources := ha.2.2
      intro u hu
      rcases List.mem_append.mp hu with hu | hu
      · exact inBounds_storeTasks.mpr hc u hu
      · rw [List.mem_singleton.mp hu]
        show 0 ≤ g.resources.count ∧ g.resources.count < (maxResources : Nat)
        omega
    | constructSrpCeilings s => exact hc.elim
    | destroySrp s =>
      have hpos : 0 < g.srp.length := List.length_pos_of_mem ha
      have hle := h.srp_le
      intro u hu
      rw [List.mem_singleton.mp hu]
      show 0 ≤ g.resources.count - 1 ∧ g.resources.count - 1 < (maxResources : Nat)
      omega
    | constructMsrp s n =>
      have hlt : g.msrp.length < maxResources := ha.2.2
      intro u hu
      rcases List.mem_append.mp hu with hu | hu
      · exact inBounds_storeTasks.mpr hc u hu
      · rw [List.mem_singleton.mp hu]
        show 0 ≤ g.globalResources.count ∧ g.globalResources.count < (maxResources : Nat)
        omega
    | destroyMsrp s => exact hc.elim
    | updateSrp =>
      exact List.forall_mem_map.mpr (inBounds_scanned h.resources h.srp_le)
    | updateMsrp =>
      intro u hu
      obtain ⟨k, hk, hu⟩ := List.mem_flatMap.mp hu
      have hlt : k < g.cpus := by
        have := List.mem_range.mp hk
        split at this <;> omega
      rcases List.mem_cons.mp hu with rfl | hu
      · exact ⟨Int.natCast_nonneg k, Int.ofNat_lt.mpr hlt⟩
      · obtain ⟨i, hi, rfl⟩ := List.mem_map.mp hu
        exact inBounds_scanned h.globalResources h.msrp_le i hi

instance (g : Registries) (a : RegistryAction) : Decidable (g.KeepsOrder a) :=
  match a with
  | .constructSrp _ nTasks | .constructMsrp _ nTasks =>
    inferInstanceAs (Decidable (nTasks ≤ maxTasks))
  | .constructSrpCeilings _ | .destroyMsrp _ => isFalse id
  | .destroySrp s => inferInstanceAs (Decidable (g.srp.getLast? = some s))
  | .updateSrp | .updateMsrp => isTrue trivial

end Registries

open Registries

/-- For every order of constructing and destroying resources, at most eight of a kind
    alive: the registries list exactly the live ones and no index leaves its array,
    exactly if resources are constructed with their tasks, SRP ones destroyed youngest
    first and MSRP ones never. -/
theorem registered_iff_keepsOrder (cpus : Nat) (as : List RegistryAction)
    (hv : (Registries.system cpus).Valid { cpus := cpus } as) :
    (Registries.system cpus).Always Sound { cpus := cpus } as ∧
        (Registries.system cpus).Meets InBounds { cpus := cpus } as ↔
      (Registries.system cpus).Meets KeepsOrder { cpus := cpus } as :=
  TransitionSystem.always_and_meets_iff (I := Inv) (fun _ h => h.sound)
    (fun _ _ h ha hc => h.step ha hc) (fun _ _ h ha => h.step_iff ha) inv_init hv

/-- Three resources, of which the SRP ones are destroyed youngest first. -/
theorem registered_iff_keepsOrder_three :
    (Registries.system 2).Always Sound { cpus := 2 } [.constructSrp 0 3, .constructSrp 1 20,
        .updateSrp, .destroySrp 1, .constructMsrp 1 2, .destroySrp 0, .updateMsrp] ∧
      (Registries.system 2).Meets InBounds { cpus := 2 } [.constructSrp 0 3, .constructSrp 1 20,
        .updateSrp, .destroySrp 1, .constructMsrp 1 2, .destroySrp 0, .updateMsrp] :=
  (registered_iff_keepsOrder 2 _ (by decide)).mpr (by decide)

/-- Destroying the older of two SRP resources drops the younger one, and destroying an
    MSRP resource writes below `_resources` of its base class. -/
theorem not_registered_of_destroy :
    ((Registries.system 1).Valid { cpus := 1 }
          [.constructSrp 0 1, .constructSrp 1 1, .destroySrp 0] ∧
        ¬(Registries.system 1).Always Sound { cpus := 1 }
          [.constructSrp 0 1, .constructSrp 1 1, .destroySrp 0]) ∧
      (Registries.system 1).Valid { cpus := 1 } [.constructMsrp 0 1, .destroyMsrp 0] ∧
        ¬(Registries.system 1).Meets InBounds { cpus := 1 } [.constructMsrp 0 1, .destroyMsrp 0] := by
  refine ⟨⟨by decide, fun h => ?_⟩, by decide, fun h => ?_⟩
  · have hex := h.last.srp
    have hmem : some 1 ∈ {x : Option Sid | ∃ s ∈ [1], some s = x} := ⟨1, by simp, rfl⟩
    change _ = {x : Option Sid | ∃ s ∈ [1], some s = x} at hex
    rw [← hex] at hmem
    obtain ⟨i, hi, hlt, hslot⟩ := hmem
    have hzero : i = 0 := by
      change i < 1 at hlt
      omega
    rw [hzero] at hslot
    exact absurd hslot (by decide)
  · have hneg := (h.2.1 (.baseResources, -1) (by decide)).1
    exact absurd hneg (by decide)

end Epos
