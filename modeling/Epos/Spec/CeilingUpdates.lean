import Epos.Spec.SystemCeiling

/-!
# Where ceilings are updated

A ceiling is recomputed at the end of a `p()` or `v()` only, and only that of the
resource operated on; the system ceiling is then taken from the stored ceilings of the
live resources. So a system ceiling is made of the tasks as they were when a `p()` or
`v()` last completed on each resource. The states that these operations left are
remembered next to the kernel (`Updated`); what the constructors and the static members
begin with is what the run begins with.
-/

namespace Epos

namespace Kernel

variable {k k' : Kernel} {c cpu : Nat} {s : Sid} {t u x : Tid} {st : State}

/-! ## Operations that complete -/

/-- The resource whose `p()` or `v()` the step completes. -/
def completes (k : Kernel) : Action → Option Sid
  | .p t s => if (k.toSync.p s t).2 then none else some s
  | .v t s =>
    match (k.toSync.v s t).2 with
    | none => some s
    | some u =>
      if ((k.callV t s).enter (k.core t) u).running (k.core t) = some t then some s else none
  | .ret t =>
    match k.call t with
    | some (.p s) | some (.v s) => some s
    | some (.join _) | none => none
  | _ => none

/-- The step from `k` to `k'` ends in `updateCeiling` of the semaphore in the last
    argument, in a kernel whose ceilings are those of `k`. -/
def UpdatedBy (k k' : Kernel) : Option Sid → Prop
  | none =>
    k'.store = k.store ∧ k'.srpCeiling = k.srpCeiling ∧ k'.msrpCeiling = k.msrpCeiling
  | some s => ∃ (k₁ : Kernel) (ins : Tid → List Sid), k₁.store = k.store ∧
      k₁.srpCeiling = k.srpCeiling ∧ k₁.msrpCeiling = k.msrpCeiling ∧
      k' = { k₁.updateCeiling s with inside := ins }

/-- A `p()` or `v()` that completes updates its resource. -/
theorem complete_updated (hcall : k.call t = some (.p s) ∨ k.call t = some (.v s)) :
    UpdatedBy k (k.complete t) (some s) := by
  refine ⟨k.endCall t, (k.complete t).inside, rfl, rfl, rfl, ?_⟩
  unfold Kernel.complete
  rcases hcall with hcall | hcall
  · rw [hcall]
    dsimp only
    split <;> rfl
  · rw [hcall]

/-- Another call updates nothing. -/
theorem complete_not_updated (hp : ∀ s, k.call t ≠ some (.p s)) (hv : ∀ s, k.call t ≠ some (.v s)) :
    UpdatedBy k (k.complete t) none := by
  unfold Kernel.complete
  split
  · rename_i s hcall
    exact absurd hcall (hp s)
  · rename_i s hcall
    exact absurd hcall (hv s)
  · exact ⟨rfl, rfl, rfl⟩
  · exact ⟨rfl, rfl, rfl⟩

/-- A move updates nothing. -/
theorem Frame.updatedBy (h : Frame k k') : UpdatedBy k k' none := by
  obtain ⟨_, _, rfl⟩ := h
  exact ⟨rfl, rfl, rfl⟩

/-- Steps one after the other. -/
theorem UpdatedBy.trans (h : UpdatedBy k k' none) {k'' : Kernel} {r : Option Sid}
    (h' : UpdatedBy k' k'' r) : UpdatedBy k k'' r := by
  obtain ⟨hstore, hsrp, hmsrp⟩ := h
  cases r with
  | none =>
    obtain ⟨h₁, h₂, h₃⟩ := h'
    exact ⟨h₁.trans hstore, h₂.trans hsrp, h₃.trans hmsrp⟩
  | some s =>
    obtain ⟨k₁, ins, h₁, h₂, h₃, heq⟩ := h'
    exact ⟨k₁, ins, h₁.trans hstore, h₂.trans hsrp, h₃.trans hmsrp, heq⟩

/-- A step updates ceilings where it completes a `p()` or `v()`, and nowhere else. -/
theorem step_updated (k : Kernel) (a : Action) : UpdatedBy k (k.step a) (k.completes a) := by
  -- the part of a call before `complete` updates nothing
  have hcallP (t : Tid) (s : Sid) : UpdatedBy k (k.callP t s) none :=
    ⟨(Sync.p_ceilings k.toSync s t s).1, rfl, rfl⟩
  have hcallV (t : Tid) (s : Sid) : UpdatedBy k (k.callV t s) none :=
    ⟨(Sync.v_ceilings k.toSync s t s).1, rfl, rfl⟩
  have hinterruptV (t : Tid) (s : Sid) : UpdatedBy k (k.interruptV t s) none :=
    ⟨(Sync.v_ceilings k.toSync s t s).1, rfl, rfl⟩
  have hsame : UpdatedBy k k none := ⟨rfl, rfl, rfl⟩
  cases a with
  | p t s =>
    show UpdatedBy k (k.p t s) (if (k.toSync.p s t).2 then none else some s)
    unfold Kernel.p
    split
    · exact (hcallP t s).trans (frame_leave _ _ _).updatedBy
    · exact (hcallP t s).trans (complete_updated (.inl (Function.update_self _ _ _)))
  | v t s =>
    have hcall : (k.callV t s).call t = some (.v s) := Function.update_self _ _ _
    show UpdatedBy k (k.v t s) (match (k.toSync.v s t).2 with
      | none => some s
      -- whether `v()` completes depends on who runs after the woken thread has been inserted
      | some u =>
        if ((k.callV t s).enter (k.core t) u).running (k.core t) = some t then some s else none)
    unfold Kernel.v
    cases hw : (k.toSync.v s t).2 with
    | none => exact (hcallV t s).trans (complete_updated (.inr hcall))
    | some u =>
      have hframe := frame_enter (k.callV t s) (k.core t) u
      have henter := (hcallV t s).trans hframe.updatedBy
      have hcore : ((k.callV t s).enter (k.core t) u).core t = k.core t := by
        rw [hframe.toSystem]
        rfl
      dsimp only
      rw [hcore]
      split
      · exact henter.trans (complete_updated (.inr (by rw [hframe.call]; exact hcall)))
      · exact henter
  | ret t =>
    show UpdatedBy k (k.complete t) (match k.call t with
      | some (.p s) | some (.v s) => some s
      | some (.join _) | none => none)
    split
    · rename_i s hcall
      exact complete_updated (.inl hcall)
    · rename_i s hcall
      exact complete_updated (.inr hcall)
    · rename_i hcall
      exact complete_not_updated (by simp [hcall]) (by simp [hcall])
    · rename_i hcall
      exact complete_not_updated (by simp [hcall]) (by simp [hcall])
  | create c t st => exact (frame_create k c t st).updatedBy
  | yield t => exact (frame_yield k t).updatedBy
  | exit t => exact (frame_exit k t).updatedBy
  | join t u =>
    show UpdatedBy k (k.join t u) none
    unfold Kernel.join
    split
    · exact hsame
    · have hcall : UpdatedBy k (k.callJoin t u) none := ⟨rfl, rfl, rfl⟩
      exact hcall.trans (frame_leave _ _ _).updatedBy
  | suspend t u => exact (frame_suspend k t u).updatedBy
  | resume c u => exact (frame_resume k c u).updatedBy
  | reschedule c => exact (frame_reschedule k c).updatedBy
  | handler c s =>
    show UpdatedBy k (k.handler c s) none
    unfold Kernel.handler
    split
    · exact hsame
    · split
      · exact hinterruptV _ s
      · exact (hinterruptV _ s).trans (frame_enter _ _ _).updatedBy
  | priority c u prio => exact (frame_setCriterion k c u prio).updatedBy
  | update u elapsed =>
    show UpdatedBy k (k.update u elapsed) none
    unfold Kernel.update
    split <;> exact ⟨rfl, rfl, rfl⟩

/-- `_ceiling` pointers never change. -/
theorem step_ceilings (k : Kernel) (a : Action) (s : Sid) :
    ((k.step a).sem s).ceilings = (k.sem s).ceilings := by
  rcases k.step_sem a with heq | ⟨s', t, heq⟩ | ⟨s', t, heq⟩
  · rw [heq]
  · rw [heq, (Sync.p_ceilings k.toSync s' t s).2]
  · rw [heq, (Sync.v_ceilings k.toSync s' t s).2]

/-- Without an update every ceiling stays what it is. -/
theorem ceiling_of_store (hstore : k'.store = k.store)
    (hptr : (k'.sem s).ceilings = (k.sem s).ceilings) : k'.ceiling s cpu = k.ceiling s cpu := by
  simp only [Sync.ceiling, hptr, hstore]

/-! ## What an update leaves -/

section Update

variable {a : Action} (hs : k.completes a = some s)
include hs

/-- The resources whose ceilings are kept elsewhere keep them. -/
theorem ceiling_of_ne (hne : (k.sem x).ceilings ≠ (k.sem s).ceilings) :
    (k.step a).ceiling x cpu = k.ceiling x cpu := by
  have hptr := k.step_ceilings a
  have hup := k.step_updated a
  rw [hs] at hup
  obtain ⟨k₁, ins, hstore, -, -, heq⟩ := hup
  have hsem : (k.step a).sem = k₁.sem := by
    obtain ⟨_, _, _, hframe⟩ := updateCeiling_frame k₁ s
    rw [heq, hframe]
  have hne₁ : (k₁.sem x).ceilings ≠ (k₁.sem s).ceilings := by
    rw [← hsem, hptr, hptr]
    exact hne
  have hself : k₁.ceiling x cpu = k.ceiling x cpu :=
    ceiling_of_store hstore (by rw [← hsem, hptr])
  rw [← hself, heq]
  show (k₁.updateCeiling s).ceiling x cpu = _
  unfold updateCeiling
  split
  · show Function.update k₁.store (k₁.sem s).ceilings _ (k₁.sem x).ceilings cpu = _
    rw [Function.update_of_ne hne₁]
    rfl
  · obtain ⟨_, _, -, hkeep, -⟩ := updateMsrpCeiling_spec k₁ s
    exact hkeep x cpu hne₁
  · rfl

/-- After an update the ceilings of SRP are fresh. -/
theorem srp_of_completes (hp : (k.sem s).protocol = .srp) :
    (k.step a).ceiling s = (k.step a).maxCeil s (fun _ => true) ∧
      (k.step a).srpCeiling = (k.step a).maxResource 0 k.srpResources ∧
      (k.step a).msrpCeiling = k.msrpCeiling := by
  have hsys := k.step_toSystem a
  have hprot := k.step_protocol a s
  have hup := k.step_updated a
  rw [hs] at hup
  obtain ⟨k₁, ins, -, -, hmsrp, heq⟩ := hup
  -- the ceilings are those of the update that completed, made on the state k₁ of that moment
  have hp₁ : (k₁.sem s).protocol = .srp := by
    obtain ⟨_, _, _, hframe⟩ := updateCeiling_frame k₁ s
    rw [heq, hframe] at hprot
    rw [← hp, ← hprot]
  rw [show k₁.updateCeiling s = k₁.updateSrpCeiling s by rw [updateCeiling, hp₁]] at heq
  obtain ⟨store, hframe, hown, -, hsystem⟩ := updateSrpCeiling_spec k₁ s
  rw [← hsys, heq]
  refine ⟨?_, ?_, ?_⟩
  · show (k₁.updateSrpCeiling s).ceiling s = _
    rw [hown]
    refine (maxCeil_congr ?_ ?_ ?_).symm <;> rw [hframe]
  · show (k₁.updateSrpCeiling s).srpCeiling = _
    rw [hsystem]
    show _ = (k₁.updateSrpCeiling s).maxResource 0 (k₁.updateSrpCeiling s).srpResources
    rw [hframe]
  · rw [← hmsrp]
    show (k₁.updateSrpCeiling s).msrpCeiling = _
    rw [hframe]

/-- After an update those of MSRP are fresh on every core that the code looks at. -/
theorem msrp_of_completes (hp : (k.sem s).protocol = .msrp) (hlive : k.msrpResources ≠ []) :
    (∀ c, c < k.cores → (k.step a).ceiling s c = (k.step a).maxCeil s (k.core · = c) ∧
      (k.step a).msrpCeiling c = (k.step a).maxResource c k.msrpResources) ∧
      (k.step a).srpCeiling = k.srpCeiling := by
  have hsys := k.step_toSystem a
  have hprot := k.step_protocol a s
  have hup := k.step_updated a
  rw [hs] at hup
  obtain ⟨k₁, ins, -, hsrp, -, heq⟩ := hup
  -- the ceilings are those of the update that completed, made on the state k₁ of that moment
  have hp₁ : (k₁.sem s).protocol = .msrp := by
    obtain ⟨_, _, _, hframe⟩ := updateCeiling_frame k₁ s
    rw [heq, hframe] at hprot
    rw [← hp, ← hprot]
  rw [show k₁.updateCeiling s = k₁.updateMsrpCeiling s by rw [updateCeiling, hp₁]] at heq
  obtain ⟨store, hframe, hown, -, hsystem⟩ := updateMsrpCeiling_spec k₁ s
  have hsys₁ : k₁.toSystem = k.toSystem := by
    rw [← hsys, heq, hframe]
  refine ⟨fun c hc => ⟨?_, ?_⟩, ?_⟩
  · rw [heq]
    show (k₁.updateMsrpCeiling s).ceiling s c = _
    rw [hown c (by rw [hsys₁]; exact hc), ← hsys₁]
    refine (maxCeil_congr ?_ ?_ ?_).symm <;> rw [hframe]
  · rw [heq, ← hsys₁]
    exact hsystem c (by rw [hsys₁]; exact hc) (by rw [hsys₁]; exact hlive)
  · rw [heq, ← hsrp]
    show (k₁.updateMsrpCeiling s).srpCeiling = _
    rw [hframe]

/-- Other semaphores update nothing. -/
theorem plain_of_completes (hp : (k.sem s).protocol ≠ .srp) (hp' : (k.sem s).protocol ≠ .msrp) :
    UpdatedBy k (k.step a) none := by
  have hprot := k.step_protocol a s
  have hup := k.step_updated a
  rw [hs] at hup
  obtain ⟨k₁, ins, hstore, hsrp, hmsrp, heq⟩ := hup
  have hp₁ : (k₁.sem s).protocol = (k.sem s).protocol := by
    obtain ⟨_, _, _, hframe⟩ := updateCeiling_frame k₁ s
    rw [heq, hframe] at hprot
    exact hprot
  rw [updateCeiling_eq_self (by rwa [hp₁]) (by rwa [hp₁])] at heq
  rw [heq]
  exact ⟨hstore, hsrp, hmsrp⟩

end Update

end Kernel

/-! ## SRP and MSRP at once -/

/-- The classes with a system ceiling. -/
def Protocol.hasCeiling : Protocol → Bool
  | .srp | .msrp => true
  | _ => false

/-- What the static members are initialised with: `_system_ceiling` explicitly, and
    `_systemCeiling` as any static array. -/
def Protocol.startCeiling : Protocol → Int
  | .msrp => 0
  | _ => defaultCeiling

namespace Kernel

variable {k k' : Kernel} {a : Action} {c : Nat} {s s' : Sid} {t x : Tid} {p : Protocol}

/-- The live resources of a class. -/
def resourcesOf (k : Kernel) : Protocol → List Sid
  | .srp => k.srpResources
  | .msrp => k.msrpResources
  | _ => []

def systemCeiling (k : Kernel) (c : Nat) : Protocol → Int
  | .srp => k.srpCeiling
  | .msrp => k.msrpCeiling c
  | _ => defaultCeiling

/-- The ceilings of a class: one for SRP, one for each core for MSRP. -/
def HasIndex (k : Kernel) (c : Nat) : Protocol → Prop
  | .srp => c = 0
  | .msrp => c < k.cores
  | _ => False

/-- The tasks that count for the ceiling with the index `c` of a class. -/
def counted (k : Kernel) (c : Nat) : Protocol → Tid → Bool
  | .msrp => (k.core · = c)
  | _ => fun _ => true

/-- The live resources are those of the classes SRP and MSRP, and no SRP resource has
    its ceiling where an MSRP one has its own. Resources of one class may share. -/
structure LiveKinds (k : Kernel) : Prop where
  live : ∀ s p, p.hasCeiling → ((k.sem s).protocol = p ↔ s ∈ k.resourcesOf p)
  apart : ∀ s s', (k.sem s).protocol = .srp → (k.sem s').protocol = .msrp →
    (k.sem s).ceilings ≠ (k.sem s').ceilings

/-- Which resources are live stays. -/
theorem LiveKinds.step (h : k.LiveKinds) (a : Action) : (k.step a).LiveKinds := by
  constructor
  case live =>
    intro s p hp
    have hres : (k.step a).resourcesOf p = k.resourcesOf p := by
      unfold resourcesOf
      rw [step_toSystem]
    rw [step_protocol, hres]
    exact h.live s p hp
  case apart =>
    intro s s' hs hs'
    rw [step_protocol] at hs hs'
    rw [step_ceilings, step_ceilings]
    exact h.apart s s' hs hs'

/-- Completing an operation on `s` writes the ceiling of `s` and the system ceiling. -/
theorem LiveKinds.completes_own (h : k.LiveKinds) (hs : k.completes a = some s)
    (hp : (k.sem s).protocol.hasCeiling) (hc : k.HasIndex c (k.sem s).protocol) :
    (k.step a).ceiling s c = (k.step a).maxCeil s (k.counted c (k.sem s).protocol) ∧
      (k.step a).systemCeiling c (k.sem s).protocol =
        (k.step a).maxResource c (k.resourcesOf (k.sem s).protocol) := by
  cases hk : (k.sem s).protocol with
  | srp =>
    rw [hk] at hc
    obtain ⟨hown, hsys, -⟩ := srp_of_completes hs hk
    rw [show c = 0 from hc]
    exact ⟨hown, hsys⟩
  | msrp =>
    rw [hk] at hc
    have hlive : s ∈ k.msrpResources := (h.live s .msrp rfl).mp hk
    obtain ⟨hown, hsys⟩ := (msrp_of_completes hs hk (List.ne_nil_of_mem hlive)).1 c hc
    exact ⟨hown, hsys⟩
  | condition | plain | pip | ipcp | pcp | mpcp _ =>
    rw [hk] at hp
    cases hp

/-- Without completing an operation on a resource of the class `p`, a step leaves the
    ceilings of that class alone. -/
theorem LiveKinds.completes_other (h : k.LiveKinds) (hp : p.hasCeiling)
    (hs : ∀ s ∈ k.completes a, (k.sem s).protocol ≠ p) (c : Nat) :
    (∀ s, (k.sem s).protocol = p → (k.step a).ceiling s c = k.ceiling s c) ∧
      (k.step a).systemCeiling c p = k.systemCeiling c p := by
  -- what updates nothing keeps all ceilings
  have hnone (hup : UpdatedBy k (k.step a) none) :
      (∀ s, (k.sem s).protocol = p → (k.step a).ceiling s c = k.ceiling s c) ∧
        (k.step a).systemCeiling c p = k.systemCeiling c p := by
    obtain ⟨hstore, hsrp, hmsrp⟩ := hup
    refine ⟨fun s _ => ceiling_of_store hstore (k.step_ceilings a s), ?_⟩
    unfold systemCeiling
    rw [hsrp, hmsrp]
  cases hcomp : k.completes a with
  | none =>
    have hup := k.step_updated a
    rw [hcomp] at hup
    exact hnone hup
  | some s =>
    have hne := hs s hcomp
    -- an update writes the ceilings of its own protocol only
    by_cases hk : (k.sem s).protocol = .srp
    · obtain ⟨-, -, hmsrp⟩ := srp_of_completes hcomp hk
      cases p with
      | srp => exact absurd hk hne
      | msrp =>
        exact ⟨fun s' hs' => ceiling_of_ne hcomp (h.apart s s' hk hs').symm, congrFun hmsrp c⟩
      | condition | plain | pip | ipcp | pcp | mpcp _ => cases hp
    · by_cases hk' : (k.sem s).protocol = .msrp
      · have hlive : s ∈ k.msrpResources := (h.live s .msrp rfl).mp hk'
        obtain ⟨-, hsrp⟩ := msrp_of_completes hcomp hk' (List.ne_nil_of_mem hlive)
        cases p with
        | msrp => exact absurd hk' hne
        | srp => exact ⟨fun s' hs' => ceiling_of_ne hcomp (h.apart s' s hs' hk'), hsrp⟩
        | condition | plain | pip | ipcp | pcp | mpcp _ => cases hp
      · exact hnone (plain_of_completes hcomp hk hk')


end Kernel

/-! ## Runs with a log -/

/-- A kernel and, for each class and each place that keeps ceilings, the resource of
    the class there on which a `p()` or `v()` has last completed, with the kernel that
    the operation left. -/
structure Updated extends Kernel where
  updated : Protocol → Nat → Option (Sid × Kernel) := fun _ _ => none

namespace Updated

variable {k₀ k₁ : Kernel} {l : Updated} {a : Action} {c q : Nat} {s : Sid} {x : Tid}
  {p : Protocol}

def step (l : Updated) (a : Action) : Updated where
  toKernel := l.toKernel.step a
  updated :=
    match l.completes a with
    | none => l.updated
    | some s =>
      Function.update l.updated (l.sem s).protocol
        (Function.update (l.updated (l.sem s).protocol) (l.sem s).ceilings
          (some (s, l.toKernel.step a)))

/-- A `p()` or `v()` on some resource of the class has completed. -/
def AnyUpdated (l : Updated) (p : Protocol) : Prop := ∃ q, l.updated p q ≠ none

/-- The step completes an operation on `s`, which is of the class `p` and has its
    ceilings at `q`. -/
def Writes (l : Updated) (a : Action) (s : Sid) (p : Protocol) (q : Nat) : Prop :=
  l.completes a = some s ∧ (l.sem s).protocol = p ∧ (l.sem s).ceilings = q

/-- A step updates one resource. -/
theorem Writes.eq {s' : Sid} (h : l.Writes a s p q) (h' : l.completes a = some s') : s' = s :=
  Option.some.inj (h'.symm.trans h.1)

/-- What a step enters into the log at one place. -/
theorem updated_step (l : Updated) (a : Action) (p : Protocol) (q : Nat) :
    (∃ s, l.Writes a s p q ∧ (l.step a).updated p q = some (s, (l.step a).toKernel)) ∨
      (∀ s, ¬l.Writes a s p q) ∧ (l.step a).updated p q = l.updated p q := by
  cases hs : l.completes a with
  | none => exact .inr ⟨fun s h => by simp [Writes, hs] at h, by simp only [step, hs]⟩
  | some s =>
    by_cases hp : p = (l.sem s).protocol
    · subst hp
      by_cases hq : q = (l.sem s).ceilings
      · subst hq
        exact .inl ⟨s, ⟨hs, rfl, rfl⟩, by simp only [step, hs, Function.update_self]⟩
      · refine .inr ⟨fun s' h => hq ?_, ?_⟩
        · rw [h.eq hs, h.2.2]
        · simp only [step, hs, Function.update_self, Function.update_of_ne hq]
    · refine .inr ⟨fun s' h => hp ?_, ?_⟩
      · rw [h.eq hs, h.2.1]
      · simp only [step, hs, Function.update_of_ne hp]

/-- The ceilings of the class `p` with the index `c` in a run from `k₀`. -/
structure KindInv (k₀ : Kernel) (l : Updated) (p : Protocol) (c : Nat) : Prop where
  fresh : ∀ s, (l.sem s).protocol = p → l.updated p (l.sem s).ceilings = none →
    l.ceiling s c = k₀.ceiling s c
  last : ∀ s s₁ k₁, (l.sem s).protocol = p → l.updated p (l.sem s).ceilings = some (s₁, k₁) →
    l.ceiling s c = k₁.maxCeil s₁ (l.counted c p)
  start : ¬l.AnyUpdated p → l.systemCeiling c p = p.startCeiling
  system : l.AnyUpdated p → l.systemCeiling c p = l.maxResource c (l.resourcesOf p)

/-- The counts of updates belong to protocols, not to states. -/
theorem step_frame (l : Updated) (a : Action) (p : Protocol) (c : Nat) :
    (l.step a).counted c p = l.counted c p ∧ (l.step a).resourcesOf p = l.resourcesOf p ∧
      ∀ s, ((l.step a).sem s).protocol = (l.sem s).protocol ∧
        ((l.step a).sem s).ceilings = (l.sem s).ceilings := by
  have hsys : (l.step a).toSystem = l.toSystem := l.toKernel.step_toSystem a
  refine ⟨?_, ?_, fun s => ⟨l.toKernel.step_protocol a s, l.toKernel.step_ceilings a s⟩⟩
  · cases p <;> simp only [Kernel.counted, hsys]
  · cases p <;> simp only [Kernel.resourcesOf, hsys]

/-- A step that completes an operation on a resource of the class. -/
theorem KindInv.step_own (h : KindInv k₀ l p c) (hlive : l.LiveKinds) (hp : p.hasCeiling)
    (hc : l.HasIndex c p) (hs : l.completes a = some s) (hsp : (l.sem s).protocol = p) :
    KindInv k₀ (l.step a) p c := by
  subst hsp
  obtain ⟨hcount, hres, hsem⟩ := l.step_frame a (l.sem s).protocol c
  obtain ⟨hown, hsystem⟩ := hlive.completes_own hs hp hc
  -- only the ceiling behind the pointer of `s` is written
  have hkeep {s' : Sid} (hne : (l.sem s').ceilings ≠ (l.sem s).ceilings) :
      (l.step a).ceiling s' c = l.ceiling s' c := Kernel.ceiling_of_ne hs hne
  constructor
  case fresh =>
    intro s' hs' hnone
    rw [(hsem s').1] at hs'
    rw [(hsem s').2] at hnone
    obtain ⟨_, -, hsome⟩ | ⟨hnot, heq⟩ := l.updated_step a _ (l.sem s').ceilings
    · rw [hnone] at hsome
      cases hsome
    · rw [hkeep fun hne => hnot s ⟨hs, rfl, hne.symm⟩]
      exact h.fresh s' hs' (heq ▸ hnone)
  case last =>
    intro s' s₁ k₁ hs' hlast
    rw [(hsem s').1] at hs'
    rw [(hsem s').2] at hlast
    rw [hcount]
    obtain ⟨s₂, hw, hsome⟩ | ⟨hnot, heq⟩ := l.updated_step a _ (l.sem s').ceilings
    · rw [hlast] at hsome
      obtain ⟨rfl, rfl⟩ := Prod.mk.inj (Option.some.inj hsome)
      obtain rfl : s = s₁ := hw.eq hs
      have hsame : (l.step a).ceiling s' c = (l.step a).ceiling s c := by
        simp only [Sync.ceiling, (hsem _).2, hw.2.2]
      rw [hsame]
      exact hown
    · rw [hkeep fun hne => hnot s ⟨hs, rfl, hne.symm⟩]
      exact h.last s' s₁ k₁ hs' (heq ▸ hlast)
  case start =>
    refine fun hnot => absurd ⟨(l.sem s).ceilings, ?_⟩ hnot
    obtain ⟨_, -, hsome⟩ | ⟨hnot, -⟩ := l.updated_step a _ (l.sem s).ceilings
    · rw [hsome]
      exact Option.some_ne_none _
    · exact absurd ⟨hs, rfl, rfl⟩ (hnot s)
  case system =>
    intro _
    rw [hres]
    exact hsystem

/-- A step that completes no operation on a resource of the class. -/
theorem KindInv.step_other (h : KindInv k₀ l p c) (hlive : l.LiveKinds) (hp : p.hasCeiling)
    (hs : ∀ s ∈ l.completes a, (l.sem s).protocol ≠ p) : KindInv k₀ (l.step a) p c := by
  obtain ⟨hcount, hres, hsem⟩ := l.step_frame a p c
  obtain ⟨hceil, hsystem⟩ := hlive.completes_other hp hs c
  have hlog (q : Nat) : (l.step a).updated p q = l.updated p q := by
    obtain ⟨s, hw, -⟩ | ⟨-, heq⟩ := l.updated_step a p q
    · exact absurd hw.2.1 (hs s hw.1)
    · exact heq
  have hany : (l.step a).AnyUpdated p ↔ l.AnyUpdated p :=
    exists_congr fun q => by rw [hlog]
  -- the step changes no ceiling of this kind, so the last update of each stays the last
  constructor
  case fresh =>
    intro s hsp hnone
    rw [(hsem s).1] at hsp
    rw [(hsem s).2, hlog] at hnone
    exact (hceil s hsp).trans (h.fresh s hsp hnone)
  case last =>
    intro s s₁ k₁ hsp hlast
    rw [(hsem s).1] at hsp
    rw [(hsem s).2, hlog] at hlast
    rw [hcount]
    exact (hceil s hsp).trans (h.last s s₁ k₁ hsp hlast)
  case start => exact fun hnot => hsystem.trans (h.start (mt hany.mpr hnot))
  case system =>
    intro hany'
    rw [hres]
    refine (hsystem.trans (h.system (hany.mp hany'))).trans ?_
    exact (Kernel.maxResource_congr fun s hs' => hceil s ((hlive.live s p hp).mpr hs')).symm

/-- What every step keeps: the kernel is well formed, both kinds of ceilings are as
    `KindInv` says, and the log has resources where they belong. -/
structure Inv (k₀ : Kernel) (l : Updated) : Prop where
  wellFormed : l.WellFormed
  kinds : l.LiveKinds
  ceilings : ∀ p c, p.hasCeiling → l.HasIndex c p → KindInv k₀ l p c
  logged : ∀ p q s k₁, l.updated p q = some (s, k₁) →
    (l.sem s).protocol = p ∧ (l.sem s).ceilings = q

/-- Every step keeps the invariant. -/
theorem Inv.step (h : Inv k₀ l) (ha : l.CanAct a) : Inv k₀ (l.step a) := by
  constructor
  case wellFormed => exact h.wellFormed.step ha
  case kinds => exact h.kinds.step a
  case ceilings =>
    intro p c hp hc
    have hc' : l.HasIndex c p := by
      unfold Kernel.HasIndex at hc ⊢
      rwa [show (l.step a).toSystem = l.toSystem from l.toKernel.step_toSystem a] at hc
    by_cases hs : ∃ s ∈ l.completes a, (l.sem s).protocol = p
    · obtain ⟨s, hs, hsp⟩ := hs
      exact (h.ceilings p c hp hc').step_own h.kinds hp hc' hs hsp
    · exact (h.ceilings p c hp hc').step_other h.kinds hp fun s hs' hsp => hs ⟨s, hs', hsp⟩
  case logged =>
    intro p q s k₁ hlog
    obtain ⟨-, -, hsem⟩ := l.step_frame a p 0
    rw [(hsem s).1, (hsem s).2]
    obtain ⟨s', hw, hsome⟩ | ⟨-, heq⟩ := l.updated_step a p q
    · rw [hlog] at hsome
      obtain ⟨rfl, -⟩ := Prod.mk.inj (Option.some.inj hsome)
      exact hw.2
    · exact h.logged p q s k₁ (heq ▸ hlog)

/-! ## What the system ceiling is made of -/

/-- The levels that the last update of the ceiling of `s` has left, in a run from `k₀`:
    those of the tasks that would have blocked then, and `DEFAULT_CEILING`. Without an
    update it is the ceiling that the run has begun with. -/
def LeftOn (k₀ : Kernel) (l : Updated) (p : Protocol) (c : Nat) (s : Sid) : Set Int :=
  match l.updated p (l.sem s).ceilings with
  | none => {k₀.ceiling s c}
  | some (s₁, k₁) => {y | y = defaultCeiling ∨ y ∈ k₁.Blocked s₁ (l.counted c p)}

/-- The levels in the system ceiling with the index `c` of the class `p`: those left on
    the live resources, and before the first update what the static member begins with. -/
def Left (k₀ : Kernel) (l : Updated) (p : Protocol) (c : Nat) : Set Int :=
  {y | ¬l.AnyUpdated p ∧ y = p.startCeiling ∨
    l.AnyUpdated p ∧ ∃ s ∈ l.resourcesOf p, y ∈ l.LeftOn k₀ p c s}

/-- The system ceiling is the largest level in it. -/
theorem Inv.systemCeiling_isGreatest (h : Inv k₀ l) (hp : p.hasCeiling) (hc : l.HasIndex c p) :
    IsGreatest (l.Left k₀ p c) (l.systemCeiling c p) := by
  have hk := h.ceilings p c hp hc
  by_cases hany : l.AnyUpdated p
  · -- there is a live resource, one that has been updated
    have hne : l.resourcesOf p ≠ [] := by
      obtain ⟨q, hq⟩ := hany
      obtain ⟨⟨s, k₁⟩, hlog⟩ := Option.ne_none_iff_exists'.mp hq
      exact List.ne_nil_of_mem ((h.kinds.live s p hp).mp (h.logged p q s k₁ hlog).1)
    have hset : l.Left k₀ p c = {y | ∃ s ∈ l.resourcesOf p, y ∈ l.LeftOn k₀ p c s} := by
      simp [Left, hany]
    rw [hset, hk.system hany]
    refine Kernel.maxResource_isGreatest_of hne fun s hs => ?_
    have hsp : (l.sem s).protocol = p := (h.kinds.live s p hp).mpr hs
    unfold LeftOn
    cases hlog : l.updated p (l.sem s).ceilings with
    | none =>
      rw [hk.fresh s hsp hlog]
      exact isGreatest_singleton
    | some e =>
      rw [hk.last s e.1 e.2 hsp hlog]
      exact e.2.maxCeil_isGreatest e.1 _
  · have hset : l.Left k₀ p c = {p.startCeiling} := by
      simp [Left, hany]
    rw [hset, hk.start hany]
    exact isGreatest_singleton

end Updated

/-- Runs of the kernel with SRP and MSRP resources, from start-up on. -/
def updatedKernel : TransitionSystem Updated Action where
  Init l := l.Boot ∧ l.LiveKinds ∧ l.srpCeiling = Protocol.startCeiling .srp ∧
    (∀ c, l.msrpCeiling c = Protocol.startCeiling .msrp) ∧ ∀ p q, l.updated p q = none
  Enabled l a := l.CanAct a
  next := Updated.step

instance (l : Updated) (a : Action) : Decidable (updatedKernel.Enabled l a) :=
  inferInstanceAs (Decidable (l.CanAct a))

/-- At start-up nothing has been updated, and the static members are as they begin. -/
theorem updatedKernel_inv {l : Updated} (h : updatedKernel.Init l) : Updated.Inv l.toKernel l := by
  obtain ⟨hboot, hkinds, hsrp, hmsrp, hnone⟩ := h
  have hany (p : Protocol) : ¬l.AnyUpdated p := fun ⟨q, hq⟩ => hq (hnone p q)
  refine ⟨hboot.toWellFormed, hkinds, fun p c hp _ => ⟨fun _ _ _ => rfl, ?_, fun _ => ?_, ?_⟩, ?_⟩
  · intro s s₁ k₁ _ hlog
    rw [hnone] at hlog
    cases hlog
  · cases p with
    | srp => exact hsrp
    | msrp => exact hmsrp c
    | condition | plain | pip | ipcp | pcp | mpcp _ => cases hp
  · exact fun hu => absurd hu (hany p)
  · intro p q s k₁ hlog
    rw [hnone] at hlog
    cases hlog

/-- The traits of the system and the classes of the semaphores do not change. -/
theorem updatedKernel_run (l : Updated) (as : List Action) :
    (updatedKernel.run l as).toSystem = l.toSystem ∧
      ∀ s, ((updatedKernel.run l as).sem s).protocol = (l.sem s).protocol := by
  induction as generalizing l with
  | nil => exact ⟨rfl, fun _ => rfl⟩
  | cons a as ih =>
    obtain ⟨hsys, hprot⟩ := ih (l.step a)
    exact ⟨hsys.trans (l.toKernel.step_toSystem a),
      fun s => (hprot s).trans (l.toKernel.step_protocol a s)⟩

/-! ## An example -/

/-- Two cores with MSRP. The threads 0 and 2 of core 0 are declared for resource 0, and
    the threads 1 and 3 of core 1 for resource 1. Thread 4 is not declared. -/
def Kernel.msrpExample : Kernel :=
  (Kernel.multi
    { priority := fun t => if t = 8 ∨ t = 9 then Priority.idle else t + 1
      sem := fun s =>
        if s = 0 then { protocol := .msrp, tasks := [0, 2] }
        else if s = 1 then { protocol := .msrp, tasks := [1, 3], ceilings := 1 }
        else { protocol := .plain }
      store := fun _ _ => 1 }
    { smp := true, cores := 2, elector := .msrp, idle := fun c => 8 + c, core := fun t => t % 2
      level := fun t => if t = 4 then 0 else 1, msrpResources := [0, 1] }
    fun c => c).withSuspended [2, 3]

/-- The kernel of the example has booted. -/
theorem Kernel.msrpExample_boot : Kernel.msrpExample.Boot := by
  refine (multi_boot (fun c hc => ?_) (fun c hc => ?_) (fun c _ => ?_) (fun s => ?_)
    (fun s => ?_) fun s => ?_).withSuspended (by decide)
  · exact Nat.mod_eq_of_lt hc
  · show (8 + c) % 2 = c
    have hlt : c < 2 := hc
    omega
  · show c ≠ 8 + c
    omega
  all_goals
    by_cases hs : s = 0
    · simp [hs]
    · by_cases hs' : s = 1 <;> simp [hs, hs']

/-- The example has two MSRP resources. -/
theorem Kernel.msrpExample_protocol (s : Sid) :
    (Kernel.msrpExample.sem s).protocol = if s = 0 ∨ s = 1 then .msrp else .plain := by
  by_cases hs : s = 0
  · simp [msrpExample, withSuspended, multi, hs]
  · by_cases hs' : s = 1 <;> simp [msrpExample, withSuspended, multi, hs, hs']

/-- Nothing is updated at the beginning. -/
theorem msrpExample_init : updatedKernel.Init { toKernel := Kernel.msrpExample } := by
  refine ⟨Kernel.msrpExample_boot, ⟨fun s p hp => ?_, fun s s' hs => ?_⟩, rfl,
    fun _ => rfl, fun _ _ => rfl⟩
  · show (Kernel.msrpExample.sem s).protocol = p ↔ s ∈ Kernel.msrpExample.resourcesOf p
    rw [Kernel.msrpExample_protocol]
    cases p with
    | msrp =>
      rw [show Kernel.msrpExample.resourcesOf .msrp = [0, 1] from rfl]
      by_cases hs : s = 0 ∨ s = 1 <;> simp [hs]
    | srp =>
      rw [show Kernel.msrpExample.resourcesOf .srp = [] from rfl]
      by_cases hs : s = 0 ∨ s = 1 <;> simp [hs]
    | condition | plain | pip | ipcp | pcp | mpcp _ => cases hp
  · change (Kernel.msrpExample.sem s).protocol = _ at hs
    rw [Kernel.msrpExample_protocol] at hs
    split at hs <;> cases hs

end Epos
