import Epos.Spec.CeilingUpdates
import Epos.Spec.SortedQueues

/-!
# How fresh the system ceiling is

What `eligible()` reads is made of the tasks as they were when each resource was last
operated on, not as they are: a dispatch changes which tasks are running and no
ceiling. With MSRP it is what is kept for core 0, on whatever core the elector is
asked. It is the largest level due exactly if the levels left by the updates and the
levels due dominate each other.
-/

namespace Epos

namespace Kernel

variable {k k' : Kernel} {c cpu : Nat} {s : Sid} {t u x : Tid} {st : State}

/-! ## Where the elector is asked -/

/-- `preempt` asks the elector of the core `c`, where it reschedules. -/
def preemptAsks (k : Kernel) (c cpu : Nat) : List (Nat × Kernel) :=
  if k.preemptive ∧ (¬k.smp ∨ cpu = c) then [(c, k)] else []

/-- `enter` asks after `t` has been inserted. -/
def enterAsks (k : Kernel) (c : Nat) (t : Tid) : List (Nat × Kernel) :=
  ((k.setState t .ready).insert t).preemptAsks c (k.core t)

/-- The core whose elector a step asks in `choose()` or `choose_another()`, and the
    kernel at that point. -/
def asks (k : Kernel) : Action → List (Nat × Kernel)
  | .v t s =>
    match (k.toSync.v s t).2 with
    | none => []
    | some u => (k.callV t s).enterAsks (k.core t) u
  | .create c t st =>
    if st = .ready ∧ k.priority t ≠ Priority.idle then k.enterAsks c t else []
  | .yield t => [(k.core t, k)]
  | .exit t => [(k.core t, ((k.setState t .finishing).remove t).resumeJoiner t)]
  | .resume c u => if k.state u = some .suspended then k.enterAsks c u else []
  | .reschedule c => [(c, k)]
  | .handler c s =>
    match k.running c with
    | none => []
    | some t =>
      match (k.toSync.v s t).2 with
      | none => []
      | some u => (k.interruptV t s).enterAsks c u
  | .priority c u prio => if k.smp then (k.reorder u prio).preemptAsks c (k.core u) else []
  | .p _ _ | .ret _ | .join _ _ | .suspend _ _ | .update _ _ => []

/-- The kernel `k₁` is asked about the core `c` in a step from `k` to `k'`: it has the
    ceilings of `k`, and its answers decide what `k'` runs there. -/
structure Asked (k k' : Kernel) (c : Nat) (k₁ : Kernel) : Prop where
  lt : c < k.cores
  system : k₁.toSystem = k.toSystem
  srp : k₁.srpCeiling = k.srpCeiling
  msrp : k₁.msrpCeiling = k.msrpCeiling
  decides : k'.sched c = (k₁.sched c).choose k₁.priority (k₁.eligible c) ∨
    k'.sched c = (k₁.sched c).chooseAnother k₁.priority (k₁.eligible c)

theorem preempt_asks {k₁ k₂ : Kernel} (h : k₁.WellFormed) (hlt : c < k₁.cores)
    (hq : (x, k₂) ∈ k₁.preemptAsks c cpu) :
    x = c ∧ k₂ = k₁ ∧
      (k₁.preempt c cpu).sched c = (k₁.sched c).choose k₁.priority (k₁.eligible c) := by
  obtain ⟨r, hr⟩ := Option.isSome_iff_exists.mp (h.isSome c hlt)
  unfold preemptAsks at hq
  unfold Kernel.preempt
  split at hq
  · rename_i hre
    simp only [List.mem_singleton, Prod.mk.injEq] at hq
    rw [if_pos hre, reschedule_sched hr, if_pos rfl]
    exact ⟨hq.1, hq.2, rfl⟩
  · cases hq

/-- A thread that becomes ready in a kernel with the ceilings of `k`. -/
theorem enter_asks {k₁ k₂ : Kernel} (h : k₁.WellFormed) (ht : ¬k₁.Schedulable t)
    (hlt : k₁.core t < k₁.cores) (hq : ∀ s, t ∉ (k₁.sem s).queue) (hj : ∀ u, k₁.joining u ≠ some t)
    (hc : c < k.cores) (hsys : k₁.toSystem = k.toSystem) (hsrp : k₁.srpCeiling = k.srpCeiling)
    (hmsrp : k₁.msrpCeiling = k.msrpCeiling) (hsched : k'.sched = (k₁.enter c t).sched)
    (hask : (x, k₂) ∈ k₁.enterAsks c t) : Asked k k' x k₂ := by
  obtain ⟨rfl, rfl, hdec⟩ := preempt_asks (h.insert ht hlt hq hj)
    (show c < k₁.cores by rw [hsys]; exact hc) hask
  refine ⟨hc, hsys, hsrp, hmsrp, .inl ?_⟩
  rw [hsched]
  exact hdec

/-- `asks` lists the kernels in which the scheduling decisions of a step are made. -/
theorem asked_of_asks (h : k.WellFormed) {a : Action} (ha : k.CanAct a) {k₂ : Kernel}
    (hq : (x, k₂) ∈ k.asks a) : Asked k (k.step a) x k₂ := by
  cases a with
  | v t s =>
    have hr : k.running (k.core t) = some t := ha.1
    have hlt : k.core t < k.cores := h.lt_of_running hr
    simp only [asks] at hq
    -- `v()` asks only if it wakes somebody up, and then for the core of the woken thread
    split at hq
    · cases hq
    · rename_i u hw
      obtain ⟨hwf, hns, hltu, hqu, hju⟩ :=
        h.woken hr (show (k.callV t s).toSync = _ from rfl) hw rfl rfl rfl rfl
          fun y hy => Function.update_of_ne hy _ _
      refine enter_asks hwf hns hltu hqu hju hlt rfl rfl rfl ?_ hq
      show (k.v t s).sched = _
      unfold Kernel.v
      rw [hw]
      dsimp only
      split
      · obtain ⟨_, _, _, _, heq⟩ := complete_eq ((k.callV t s).enter (k.core t) u) t
        rw [heq]
      · rfl
  | create c t st =>
    obtain ⟨hns, hqt, hjt⟩ := h.unborn ha.2.1
    simp only [asks] at hq
    split at hq
    · rename_i hst
      obtain ⟨rfl, hidle⟩ := hst
      refine enter_asks h hns ha.2.2.1 hqt hjt ha.1 rfl rfl rfl ?_ hq
      show (k.create c t .ready).sched = _
      unfold Kernel.create
      simp only [ne_eq, not_true_eq_false, reduceCtorEq, false_and, if_false]
      exact congrArg Kernel.sched (if_pos ⟨trivial, hidle⟩)
    · cases hq
  | yield t =>
    have hr : k.running (k.core t) = some t := ha.1
    simp only [asks, List.mem_singleton, Prod.mk.injEq] at hq
    rw [hq.1, hq.2]
    refine ⟨h.lt_of_running hr, rfl, rfl, rfl, .inr ?_⟩
    show (k.yield t).sched _ = _
    rw [yield_sched, if_pos rfl]
  | exit t =>
    have hr : k.running (k.core t) = some t := ha.1.1
    simp only [asks, List.mem_singleton, Prod.mk.injEq] at hq
    obtain ⟨rfl, rfl⟩ := hq
    have hframe := frame_resumeJoiner ((k.setState t .finishing).remove t) t
    refine ⟨h.lt_of_running hr, hframe.toSystem, hframe.srpCeiling, hframe.msrpCeiling, .inl ?_⟩
    show (k.exit t).sched _ = _
    unfold Kernel.exit
    rw [dispatch_sched, setSched_sched, if_pos rfl]
  | resume c u =>
    simp only [asks] at hq
    split at hq
    · rename_i hst
      refine enter_asks h (by simp [Schedulable, hst]) (h.core_lt u (by simp [hst]))
        (fun s hmem => ?_) (fun y hy => ?_) ha.1 rfl rfl rfl ?_ hq
      · have := (h.queued s u hmem).1
        rw [hst] at this
        cases this
      · have hcall := ha.2
        rw [(h.joined y u hy).2] at hcall
        exact hcall rfl
      · show (k.resume c u).sched = _
        unfold Kernel.resume
        rw [if_pos hst]
    · cases hq
  | reschedule c =>
    obtain ⟨r, hr⟩ := Option.isSome_iff_exists.mp (h.isSome c ha)
    simp only [asks, List.mem_singleton, Prod.mk.injEq] at hq
    rw [hq.1, hq.2]
    refine ⟨ha, rfl, rfl, rfl, .inl ?_⟩
    show (k.reschedule c).sched c = _
    rw [reschedule_sched hr, if_pos rfl]
  | handler c s =>
    obtain ⟨r, hr⟩ := Option.isSome_iff_exists.mp (h.isSome c ha.1)
    simp only [asks, hr] at hq
    split at hq
    · cases hq
    · rename_i u hw
      obtain ⟨hwf, hns, hltu, hqu, hju⟩ :=
        h.woken hr (show (k.interruptV r s).toSync = _ from rfl) hw rfl rfl rfl rfl
          fun _ _ => rfl
      refine enter_asks hwf hns hltu hqu hju ha.1 rfl rfl rfl ?_ hq
      show (k.handler c s).sched = _
      unfold Kernel.handler
      rw [hr]
      dsimp only
      rw [hw]
  | priority c u p =>
    have hframe := frame_reorder k u p
    have hsys : (k.reorder u p).toSystem = k.toSystem := hframe.toSystem
    simp only [asks] at hq
    split at hq
    · rename_i hsmp
      have hcore : k.core u = (k.reorder u p).core u := by rw [hsys]
      obtain ⟨rfl, rfl, hdec⟩ := preempt_asks (h.reorder ha.2)
        (show c < (k.reorder u p).cores by rw [hsys]; exact ha.1) hq
      refine ⟨ha.1, hsys, hframe.srpCeiling, hframe.msrpCeiling, .inl ?_⟩
      rw [← hdec]
      show (k.setCriterion x u p).sched x = _
      unfold Kernel.setCriterion
      dsimp only
      rw [if_pos (by rw [hsys]; exact hsmp), ← hcore]
    · cases hq
  -- these leave the decision to the thread that is there already
  | p _ _ | ret _ | join _ _ | suspend _ _ | update _ _ => cases hq

/-! ## What the elector should read -/

/-- The levels of the tasks that would block on a live resource of the class now, and
    `DEFAULT_CEILING`. -/
def Due (k : Kernel) (p : Protocol) (c : Nat) : Set Int :=
  {y | y = defaultCeiling ∨ ∃ s ∈ k.resourcesOf p, y ∈ k.Blocked s (k.counted c p)}

/-- The system ceiling that the elector reads when it is asked on the core `c` is the
    largest level due there. -/
def UpToDate (k : Kernel) (c : Nat) : Prop :=
  match k.elector with
  | .always => True
  | .srp => IsGreatest (k.Due .srp c) k.srpCeiling
  | .msrp => IsGreatest (k.Due .msrp c) (k.msrpCeiling Priority.queue)

end Kernel

namespace Updated

variable {k₀ k₁ : Kernel} {l : Updated} {c : Nat}

/-- No level left by the updates is above all levels due on the core `c` now, and none
    due is above all left. With MSRP the levels left are those for core 0. -/
def Matches (k₀ : Kernel) (l : Updated) (k : Kernel) (c : Nat) : Prop :=
  match k.elector with
  | .always => True
  | .srp =>
    IsCofinalFor (l.Left k₀ .srp 0) (k.Due .srp c) ∧
      IsCofinalFor (k.Due .srp c) (l.Left k₀ .srp 0)
  | .msrp =>
    IsCofinalFor (l.Left k₀ .msrp Priority.queue) (k.Due .msrp c) ∧
      IsCofinalFor (k.Due .msrp c) (l.Left k₀ .msrp Priority.queue)

/-- The kernel that is asked has the ceilings that the log explains. -/
theorem Inv.upToDate_iff (h : Inv k₀ l) (hc : c < l.cores) (hsys : k₁.toSystem = l.toSystem)
    (hsrp : k₁.srpCeiling = l.srpCeiling) (hmsrp : k₁.msrpCeiling = l.msrpCeiling) :
    k₁.UpToDate c ↔ l.Matches k₀ k₁ c := by
  unfold Kernel.UpToDate Matches
  rw [hsys, hsrp, hmsrp]
  cases l.elector with
  | always => rfl
  | srp => exact (h.systemCeiling_isGreatest (p := .srp) rfl rfl).iff_isCofinalFor
  | msrp =>
    have hzero : Priority.queue < l.cores := (Nat.zero_le c).trans_lt hc
    exact (h.systemCeiling_isGreatest (p := .msrp) rfl hzero).iff_isCofinalFor

end Updated

end Epos
