import Epos.Spec.WellFormed

/-!
# What the ceilings of SRP and MSRP are

The loops over `_tasks` and `_resources` compute largest values, and `eligible()`
reads nothing else of a resource than the system ceiling.
-/

namespace Epos

namespace Kernel

variable {k k' : Kernel} {c cpu : Nat} {s : Sid} {t x : Tid}

/-- The levels of the tasks of `s` that would block on it, of those in `on`. -/
def Blocked (k : Kernel) (s : Sid) (on : Tid → Bool) : Set Int :=
  {y | ∃ t ∈ (k.sem s).tasks,
    (on t ∧ (k.sem s).value < 1 ∧ k.state t ≠ some .running) ∧ k.level t = y}

/-- The ceiling of `s` is the largest level of its tasks that would block on it, and
    `DEFAULT_CEILING` without one. -/
theorem maxCeil_isGreatest (k : Kernel) (s : Sid) (on : Tid → Bool) :
    IsGreatest {y | y = defaultCeiling ∨ y ∈ k.Blocked s on} (k.maxCeil s on) := by
  have h := List.isGreatest_foldl (f := k.level)
    (p := fun t => on t ∧ (k.sem s).value < 1 ∧ k.state t ≠ some .running)
    (k.sem s).tasks defaultCeiling
  simp only [and_assoc] at h
  simp only [Blocked, Set.mem_ofPred_eq, and_assoc]
  exact h

theorem level_le_maxCeil {on : Tid → Bool} (ht : t ∈ (k.sem s).tasks) (hon : on t)
    (hv : (k.sem s).value < 1) (hst : k.state t ≠ some .running) :
    k.level t ≤ k.maxCeil s on :=
  (k.maxCeil_isGreatest s on).2 (.inr ⟨t, ht, ⟨hon, hv, hst⟩, rfl⟩)

/-- The system ceiling is the largest ceiling of the live resources. -/
theorem maxResource_isGreatest {l : List Sid} (hl : l ≠ []) :
    IsGreatest {y | ∃ s ∈ l, k.ceiling s cpu = y} (k.maxResource cpu l) := by
  cases l with
  | nil => exact absurd rfl hl
  | cons z zs =>
    have h := List.isGreatest_foldl (f := fun s => k.ceiling s cpu) (p := fun _ => True) zs
      (k.ceiling z cpu)
    simp only [true_and] at h
    have hset : {y | y = k.ceiling z cpu ∨ ∃ s ∈ zs, k.ceiling s cpu = y} =
        {y | ∃ s ∈ z :: zs, k.ceiling s cpu = y} := by
      ext y
      simp [eq_comm]
    rw [hset] at h
    exact h

theorem ceiling_le_maxResource {l : List Sid} (hs : s ∈ l) :
    k.ceiling s cpu ≤ k.maxResource cpu l :=
  (maxResource_isGreatest (List.ne_nil_of_mem hs)).2 ⟨s, hs, rfl⟩

/-- A resource that is free counts with `DEFAULT_CEILING`. -/
theorem maxCeil_of_free (h : ¬(k.sem s).value < 1) (on : Tid → Bool) :
    k.maxCeil s on = defaultCeiling := by
  unfold maxCeil
  generalize (k.sem s).tasks = tasks
  induction tasks with
  | nil => rfl
  | cons t tasks ih =>
    rw [List.foldl_cons, if_neg fun hc => h hc.2.1]
    exact ih

theorem maxResource_congr {l : List Sid} (h : ∀ s ∈ l, k'.ceiling s cpu = k.ceiling s cpu) :
    k'.maxResource cpu l = k.maxResource cpu l := by
  cases l with
  | nil => rfl
  | cons s rest =>
    simp only [maxResource]
    rw [h s List.mem_cons_self]
    refine List.foldl_ext _ _ _ fun m s' hs' => ?_
    rw [h s' (List.mem_cons_of_mem _ hs')]

/-- The ceiling of `s` is computed from `s`, the states and the levels. -/
theorem maxCeil_congr {on : Tid → Bool} (hsem : k'.sem s = k.sem s) (hstate : k'.state = k.state)
    (hsys : k'.toSystem = k.toSystem) : k'.maxCeil s on = k.maxCeil s on := by
  unfold maxCeil
  rw [hsem, hstate, hsys]

/-- The system ceiling for resources whose ceilings are largest values themselves. -/
theorem maxResource_isGreatest_of {l : List Sid} (hl : l ≠ []) {B : Sid → Set Int}
    (h : ∀ s ∈ l, IsGreatest (B s) (k.ceiling s cpu)) :
    IsGreatest {y | ∃ s ∈ l, y ∈ B s} (k.maxResource cpu l) := by
  obtain ⟨⟨s, hs, heq⟩, hle⟩ :
      IsGreatest {y | ∃ s ∈ l, k.ceiling s cpu = y} (k.maxResource cpu l) :=
    maxResource_isGreatest hl
  constructor
  · exact ⟨s, hs, heq ▸ (h s hs).1⟩
  · rintro y ⟨s', hs', hy⟩
    exact ((h s' hs').2 hy).trans (hle ⟨s', hs', rfl⟩)

/-- What `Semaphore_SRP::updateCeiling` writes. Resources whose `_ceiling` points
    elsewhere keep theirs. -/
theorem updateSrpCeiling_spec (k : Kernel) (s : Sid) :
    ∃ store, k.updateSrpCeiling s =
        { k with store := store, srpCeiling := (k.updateSrpCeiling s).srpCeiling } ∧
      (k.updateSrpCeiling s).ceiling s = k.maxCeil s (fun _ => true) ∧
      (∀ s', (k.sem s').ceilings ≠ (k.sem s).ceilings →
        (k.updateSrpCeiling s).ceiling s' = k.ceiling s') ∧
      (k.updateSrpCeiling s).srpCeiling =
        (k.updateSrpCeiling s).maxResource 0 k.srpResources := by
  refine ⟨_, rfl, ?_, fun s' hs' => ?_, rfl⟩
  · show Function.update k.store (k.sem s).ceilings _ (k.sem s).ceilings 0 = _
    rw [Function.update_self]
    rfl
  · show Function.update k.store (k.sem s).ceilings _ (k.sem s').ceilings 0 = _
    rw [Function.update_of_ne hs']
    rfl

/-- What `Semaphore_MSRP::updateCeiling` writes on the cores of the system. -/
theorem updateMsrpCeiling_spec (k : Kernel) (s : Sid) :
    ∃ store, k.updateMsrpCeiling s =
        { k with store := store, msrpCeiling := (k.updateMsrpCeiling s).msrpCeiling } ∧
      (∀ c, c < k.cores → (k.updateMsrpCeiling s).ceiling s c = k.maxCeil s (k.core · = c)) ∧
      (∀ s' c, (k.sem s').ceilings ≠ (k.sem s).ceilings →
        (k.updateMsrpCeiling s).ceiling s' c = k.ceiling s' c) ∧
      ∀ c, c < k.cores → k.msrpResources ≠ [] → (k.updateMsrpCeiling s).msrpCeiling c =
        (k.updateMsrpCeiling s).maxResource c k.msrpResources := by
  refine ⟨_, rfl, fun c hc => ?_, fun s' c hs' => ?_, fun c hc hne => ?_⟩
  · show Function.update k.store (k.sem s).ceilings _ (k.sem s).ceilings c = _
    rw [Function.update_self]
    exact if_pos hc
  · show Function.update k.store (k.sem s).ceilings _ (k.sem s').ceilings c = _
    rw [Function.update_of_ne hs']
    rfl
  · exact if_pos ⟨hc, fun hnil => absurd hnil hne⟩

/-! ## Eligibility -/

theorem eligible_congr (hsys : k'.toSystem = k.toSystem) (hprio : k'.priority x = k.priority x)
    (hrun : k'.running c = k.running c) (hsrp : k'.srpCeiling = k.srpCeiling)
    (hmsrp : k'.msrpCeiling = k.msrpCeiling) : k'.eligible c x = k.eligible c x := by
  unfold eligible
  rw [hsys, hprio, hrun, hsrp, hmsrp]

theorem Frame.eligible (h : Frame k k') (hrun : k'.running c = k.running c) :
    k'.eligible c x = k.eligible c x := by
  obtain ⟨st, sc, heq⟩ := h
  refine eligible_congr ?_ ?_ hrun ?_ ?_ <;> rw [heq]

/-- Where there is no ceiling to update, a `v()` just returns. -/
theorem complete_v_eq (hcall : k.call t = some (.v s)) (hs : (k.sem s).protocol ≠ .srp)
    (hm : (k.sem s).protocol ≠ .msrp) : k.complete t = k.endCall t := by
  unfold Kernel.complete
  rw [hcall]
  exact updateCeiling_eq_self hs hm

end Kernel

end Epos
