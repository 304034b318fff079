import Epos.Spec.CeilingUpdates

/-!
# Ceilings left over when all resources are free

Once every resource is free and no update is pending, a resource that has been
operated on has the ceiling `DEFAULT_CEILING`, since the last operation on it found it
free. One that nobody has operated on yet still has what its constructor put there,
and before the first operation on any MSRP resource the system ceilings are the zeros
that static storage begins with. A thread with a level above what is left over is
eligible, and no other one that the elector compares. The MSRP elector compares every
thread with what is left over for core 0.
-/

namespace Epos

namespace Sync

variable {σ : Sync} {s s' : Sid} {t : Tid}

/-- `p()` leaves the other semaphores alone. -/
theorem p_sem_of_ne (hs : s' ≠ s) : (σ.p s t).1.sem s' = σ.sem s' := by
  by_cases hk : (σ.sem s).protocol.owned
  · cases ho : (σ.sem s).owner with
    | none => simp [p_free hk ho, hs]
    | some own => simp [p_owned hk ho, hs]
  · exact (p_of_not_owned hk).2.2 s' hs

/-- `v()` leaves the other semaphores alone. -/
theorem v_sem_of_ne (hs : s' ≠ s) : (σ.v s t).1.sem s' = σ.sem s' := by
  by_cases hk : (σ.sem s).protocol.owned
  · by_cases ho : (σ.sem s).owner = some t
    · cases hq : (σ.sem s).queue with
      | nil => simp [v_last hk ho hq, hs]
      | cons next q => simp [v_handoff hk ho hq, hs]
    · simp [v_other hk ho, hs]
  · exact (v_of_not_owned hk).2.2 s' hs

end Sync

namespace Kernel

variable {k k' : Kernel} {a : Action} {c : Nat} {s s' : Sid} {t x : Tid}

/-! ## Operations in progress -/

/-- A `p()` or `v()` of `s` that has not returned. -/
def Pending (k : Kernel) (s : Sid) : Prop := ∃ t, k.call t = some (.p s) ∨ k.call t = some (.v s)

/-- `s` is taken, or an operation on it is in progress. -/
def Busy (k : Kernel) (s : Sid) : Prop := k.Pending s ∨ (k.sem s).value < 1

/-- One call ends. -/
theorem complete_call_eq (k : Kernel) (t x : Tid) :
    (k.complete t).call x = if x = t then none else k.call x := by
  obtain ⟨_, _, _, _, heq⟩ := complete_eq k t
  rw [heq]
  exact Function.update_apply _ _ _ _

/-- The end of a call leaves the semaphores alone. -/
theorem complete_sem (k : Kernel) (t : Tid) : (k.complete t).sem = k.sem := by
  obtain ⟨_, _, _, _, heq⟩ := complete_eq k t
  rw [heq]

/-- The thread is in its `p()`. -/
theorem callP_call (k : Kernel) (t : Tid) (s : Sid) :
    (k.callP t s).call x = if x = t then some (.p s) else k.call x :=
  Function.update_apply _ _ _ _

/-- The thread is in its `v()`. -/
theorem callV_call (k : Kernel) (t : Tid) (s : Sid) :
    (k.callV t s).call x = if x = t then some (.v s) else k.call x :=
  Function.update_apply _ _ _ _

/-- After `p()` only a thread that sleeps is still in it. -/
theorem p_call (k : Kernel) (t : Tid) (s : Sid) : (k.p t s).call x =
    if x = t then (if (k.toSync.p s t).2 then some (.p s) else none) else k.call x := by
  unfold Kernel.p
  split
  · rw [(frame_leave _ _ _).call, callP_call]
  · rw [complete_call_eq, callP_call]
    split <;> rfl

/-- After `v()` only a thread whose call has not completed is still in it. -/
theorem v_call (k : Kernel) (t : Tid) (s : Sid) : (k.v t s).call x =
    if x = t then (if k.completes (.v t s) = none then some (.v s) else none) else k.call x := by
  unfold Kernel.v
  cases hw : (k.toSync.v s t).2 with
  | none =>
    dsimp only
    rw [complete_call_eq, callV_call]
    by_cases hx : x = t <;> simp [completes, hw, hx]
  | some u =>
    have hframe := frame_enter (k.callV t s) (k.core t) u
    have hcore : ((k.callV t s).enter (k.core t) u).core t = k.core t := by
      rw [hframe.toSystem]
      rfl
    dsimp only
    rw [hcore]
    split
    · rename_i hr
      rw [complete_call_eq, hframe.call, callV_call]
      by_cases hx : x = t <;> simp [completes, hw, hr, hx]
    · rename_i hr
      rw [hframe.call, callV_call]
      simp [completes, hw, hr]

/-- The semaphores after `p()`. -/
theorem p_sem (k : Kernel) (t : Tid) (s : Sid) : (k.p t s).sem = (k.toSync.p s t).1.sem := by
  unfold Kernel.p
  split
  · rw [(frame_leave _ _ _).toSync]
    rfl
  · rw [complete_sem]
    rfl

/-- The semaphores after `v()`. -/
theorem v_sem (k : Kernel) (t : Tid) (s : Sid) : (k.v t s).sem = (k.toSync.v s t).1.sem := by
  unfold Kernel.v
  split
  · rw [complete_sem]
    rfl
  · dsimp only
    split
    · rw [complete_sem, (frame_enter _ _ _).toSync]
      rfl
    · rw [(frame_enter _ _ _).toSync]
      rfl

/-- The operations that neither start nor end a `p()` or `v()` and that no resource
    notices. -/
theorem step_call_sem (ha : k.CanAct a) (hs : (k.sem s).protocol.resource)
    (hp : ∀ t s, a ≠ .p t s) (hv : ∀ t s, a ≠ .v t s) (hret : ∀ t, a ≠ .ret t) :
    (∀ t, k.call t ≠ none → (k.step a).call t = k.call t) ∧ (k.step a).sem s = k.sem s := by
  have hframe {k' : Kernel} (h : Frame k k') :
      (∀ t, k.call t ≠ none → k'.call t = k.call t) ∧ k'.sem s = k.sem s :=
    ⟨fun t _ => by rw [h.call], by rw [h.toSync]⟩
  cases a with
  | p t s => exact absurd rfl (hp t s)
  | v t s => exact absurd rfl (hv t s)
  | ret t => exact absurd rfl (hret t)
  | create c t st => exact hframe (frame_create k c t st)
  | yield t => exact hframe (frame_yield k t)
  | exit t =>
    have h := frame_exit k t
    exact ⟨fun x _ => congrFun h.call x, congrFun h.sem s⟩
  | join t u =>
    show (∀ x, k.call x ≠ none → (k.join t u).call x = k.call x) ∧ (k.join t u).sem s = k.sem s
    unfold Kernel.join
    split
    · exact ⟨fun _ _ => rfl, rfl⟩
    · -- the caller is in no call, so the others keep theirs
      have hleave := frame_leave (k.callJoin t u) t .suspended
      refine ⟨fun x hx => ?_, ?_⟩
      · rw [hleave.call]
        have hne : x ≠ t := by
          rintro rfl
          exact hx ha.1.2
        exact Function.update_of_ne hne _ _
      · rw [hleave.toSync]
        rfl
  | suspend t u => exact hframe (frame_suspend k t u)
  | resume c u => exact hframe (frame_resume k c u)
  | reschedule c => exact hframe (frame_reschedule k c)
  | handler c s' =>
    -- a handler calls `v()` on no resource
    have hne : s ≠ s' := fun heq => ha.2 (heq ▸ hs)
    show (∀ x, k.call x ≠ none → (k.handler c s').call x = k.call x) ∧
      (k.handler c s').sem s = k.sem s
    unfold Kernel.handler
    split
    · exact ⟨fun _ _ => rfl, rfl⟩
    · split
      · exact ⟨fun _ _ => rfl, Sync.v_sem_of_ne hne⟩
      · rw [(frame_enter _ _ _).call, (frame_enter _ _ _).toSync]
        exact ⟨fun _ _ => rfl, Sync.v_sem_of_ne hne⟩
  | priority c u prio =>
    have h := frame_setCriterion k c u prio
    exact ⟨fun x _ => congrFun h.call x, congrFun h.sem s⟩
  | update u elapsed =>
    show (∀ x, k.call x ≠ none → (k.update u elapsed).call x = k.call x) ∧
      (k.update u elapsed).sem s = k.sem s
    unfold Kernel.update
    split <;> exact ⟨fun _ _ => rfl, rfl⟩

/-- It is enough that the operations on `s` go on and that the semaphore is the same. -/
theorem Busy.keep {k' : Kernel} (h : k.Busy s)
    (hcall : ∀ x, k.call x = some (.p s) ∨ k.call x = some (.v s) → k'.call x = k.call x)
    (hsem : k'.sem s = k.sem s) : k'.Busy s := by
  cases h with
  | inl h =>
    obtain ⟨x, hx⟩ := h
    refine .inl ⟨x, ?_⟩
    rwa [hcall x hx]
  | inr hval =>
    refine .inr ?_
    rwa [hsem]

/-- A resource stays busy until an operation on it returns. -/
theorem Busy.step (h : k.Busy s) (ha : k.CanAct a) (hs : (k.sem s).protocol.resource)
    (hc : k.completes a ≠ some s) : (k.step a).Busy s := by
  have hcases : (∃ t s', a = .p t s') ∨ (∃ t s', a = .v t s') ∨ (∃ t, a = .ret t) ∨
      (∀ t s', a ≠ .p t s') ∧ (∀ t s', a ≠ .v t s') ∧ ∀ t, a ≠ .ret t := by
    cases a <;> simp
  obtain ⟨t, s', rfl⟩ | ⟨t, s', rfl⟩ | ⟨t, rfl⟩ | ⟨hp, hv, hret⟩ := hcases
  · have hidle : k.call t = none := ha.1.2
    by_cases heq : s = s'
    · -- the caller sleeps, as the operation would be complete otherwise
      subst heq
      have hsleep : (k.toSync.p s t).2 = true := by
        by_contra hn
        exact hc (if_neg hn)
      exact .inl ⟨t, .inl (by rw [show k.step (.p t s) = k.p t s from rfl, p_call, if_pos rfl,
        if_pos hsleep])⟩
    · refine h.keep (fun x hx => ?_) ?_
      · have hne : x ≠ t := by
          rintro rfl
          simp [hidle] at hx
        rw [show k.step (.p t s') = k.p t s' from rfl, p_call, if_neg hne]
      · rw [show k.step (.p t s') = k.p t s' from rfl, p_sem, Sync.p_sem_of_ne heq]
  · have hidle : k.call t = none := ha.2
    by_cases heq : s = s'
    · -- the woken thread preempts the caller
      subst heq
      have hnone : k.completes (.v t s) = none := by
        simp only [completes] at hc ⊢
        split at hc
        · exact absurd rfl hc
        · split at hc
          · exact absurd rfl hc
          · rename_i hr
            exact if_neg hr
      exact .inl ⟨t, .inr (by rw [show k.step (.v t s) = k.v t s from rfl, v_call, if_pos rfl,
        if_pos hnone])⟩
    · refine h.keep (fun x hx => ?_) ?_
      · have hne : x ≠ t := by
          rintro rfl
          simp [hidle] at hx
        rw [show k.step (.v t s') = k.v t s' from rfl, v_call, if_neg hne]
      · rw [show k.step (.v t s') = k.v t s' from rfl, v_sem, Sync.v_sem_of_ne heq]
  · -- what returns is no operation on `s`
    refine h.keep (fun x hx => ?_) (congrFun (complete_sem k t) s)
    have hne : x ≠ t := by
      rintro rfl
      obtain hx | hx := hx <;> exact hc (by simp [completes, hx])
    rw [show k.step (.ret t) = k.complete t from rfl, complete_call_eq, if_neg hne]
  · obtain ⟨hcall, hsem⟩ := step_call_sem ha hs hp hv hret
    refine h.keep (fun x hx => hcall x ?_) hsem
    obtain hx | hx := hx <;> simp [hx]

end Kernel

/-! ## Runs that remember who was busy -/

namespace Updated

variable {k₀ : Kernel} {l : Updated} {a : Action} {c : Nat} {s : Sid} {x : Tid} {p : Protocol}

/-- A resource that the last operation on its ceiling left busy has been busy since. -/
structure ResidueInv (k₀ : Kernel) (l : Updated) : Prop extends Inv k₀ l where
  busy : ∀ p q s k₁, p.hasCeiling → l.updated p q = some (s, k₁) → k₁.Busy s → l.Busy s

/-- Every step keeps the invariant. -/
theorem ResidueInv.step (h : ResidueInv k₀ l) (ha : l.CanAct a) : ResidueInv k₀ (l.step a) where
  toInv := h.toInv.step ha
  busy p q s k₁ hp hlog hbusy := by
    obtain ⟨s', hw, hsome⟩ | ⟨hnot, heq⟩ := l.updated_step a p q
    · rw [hlog] at hsome
      obtain ⟨rfl, rfl⟩ := Prod.mk.inj (Option.some.inj hsome)
      exact hbusy
    · rw [heq] at hlog
      obtain ⟨hsp, hsq⟩ := h.logged p q s k₁ hlog
      have hres : (l.sem s).protocol.resource := by
        rw [hsp]
        revert hp
        cases p <;> simp [Protocol.hasCeiling, Protocol.resource]
      exact (h.busy p q s k₁ hp hlog hbusy).step ha hres fun hs => hnot s ⟨hs, hsp, hsq⟩

end Updated

/-! ## What is left over -/

namespace Kernel

/-- Every live resource is free and no `p()` or `v()` of it is in progress. -/
def Quiescent (k : Kernel) : Prop := ∀ s ∈ k.srpResources ++ k.msrpResources, ¬k.Busy s

def AllEligible (k : Kernel) : Prop :=
  ∀ x, k.state x = some .ready → k.eligible (k.core x) x

/-- The elector compares no levels for `x`. -/
def Exempt (k : Kernel) (x : Tid) : Prop :=
  k.priority x = Priority.idle ∨ k.priority x = Priority.main ∨
    (k.running (k.core x)).all (k.level · = 0)

end Kernel

namespace Updated

variable {k₀ : Kernel} {l : Updated} {a : Action} {c : Nat} {s : Sid} {x : Tid} {p : Protocol}

/-- The level is above what is left over of the ceilings of the class `p` when all is
    free: before any use what the static members start with, and then
    `DEFAULT_CEILING` and the initial ceilings of the resources not used yet. -/
structure AboveResidue (k₀ : Kernel) (l : Updated) (p : Protocol) (c : Nat) (level : Int) :
    Prop where
  start : ¬l.AnyUpdated p → p.startCeiling < level
  default : l.AnyUpdated p → defaultCeiling < level
  unused : l.AnyUpdated p → ∀ s, (l.sem s).protocol = p → l.updated p (l.sem s).ceilings = none →
    k₀.ceiling s c < level

/-- Every ready thread whose level is compared is above what is left over. With MSRP
    that is what is left over for core 0, on whatever core the thread is. -/
def ClearsResidue (k₀ : Kernel) (l : Updated) : Prop :=
  ∀ x, l.state x = some .ready →
    match l.elector with
    | .always => True
    | .srp => l.Exempt x ∨ l.AboveResidue k₀ .srp 0 (l.level x)
    | .msrp => l.Exempt x ∨ l.AboveResidue k₀ .msrp Priority.queue (l.level x)

/-- When all is free, no task would block on a resource in the log. -/
theorem ResidueInv.systemCeiling_lt_iff (h : ResidueInv k₀ l) (hq : l.Quiescent)
    (hp : p.hasCeiling) (hc : l.HasIndex c p) (level : Int) :
    l.systemCeiling c p < level ↔ l.AboveResidue k₀ p c level := by
  have hlive (s : Sid) : (l.sem s).protocol = p ↔ s ∈ l.resourcesOf p := h.kinds.live s p hp
  have hidle (s : Sid) (hs : (l.sem s).protocol = p) : ¬l.Busy s := by
    refine hq s (List.mem_append.mpr ?_)
    have hmem := (hlive s).mp hs
    cases p with
    | srp => exact .inl hmem
    | msrp => exact .inr hmem
    | condition | plain | pip | ipcp | pcp | mpcp _ => cases hp
  rw [(h.systemCeiling_isGreatest hp hc).lt_iff]
  constructor
  · intro hall
    constructor
    case start => exact fun hany => hall _ (.inl ⟨hany, rfl⟩)
    case default =>
      intro hany
      obtain ⟨q, hlog⟩ := hany
      obtain ⟨⟨s, k₁⟩, hsome⟩ := Option.ne_none_iff_exists'.mp hlog
      obtain ⟨hsp, hsq⟩ := h.logged p q s k₁ hsome
      refine hall _ (.inr ⟨⟨q, hlog⟩, s, (hlive s).mp hsp, ?_⟩)
      simp [LeftOn, hsq, hsome]
    case unused =>
      intro hany s hsp hnone
      refine hall _ (.inr ⟨hany, s, (hlive s).mp hsp, ?_⟩)
      simp [LeftOn, hnone]
  · rintro habove y (⟨hany, rfl⟩ | ⟨hany, s, hs, hy⟩)
    · exact habove.start hany
    · unfold LeftOn at hy
      split at hy
      · rename_i hnone
        rw [Set.mem_singleton_iff.mp hy]
        exact habove.unused hany s ((hlive s).mpr hs) hnone
      · rename_i s₁ k₁ hlog
        rcases hy with rfl | ⟨t, -, ⟨-, hval, -⟩, -⟩
        · exact habove.default hany
        · -- the resource was taken when the operation on it completed, and is not now
          have hbusy := h.busy p _ s₁ k₁ hp hlog (.inr hval)
          exact absurd hbusy (hidle s₁ (h.logged p _ s₁ k₁ hlog).1)

/-- Who is eligible, asked on the thread's own core. -/
theorem eligible_iff (k : Kernel) (x : Tid) : k.eligible (k.core x) x ↔
    match k.elector with
    | .always => True
    | .srp => k.Exempt x ∨ k.systemCeiling 0 .srp < k.level x
    | .msrp => k.Exempt x ∨ k.systemCeiling Priority.queue .msrp < k.level x := by
  unfold Kernel.eligible
  cases k.elector with
  | always => simp
  | srp => simp [Kernel.Exempt, Kernel.systemCeiling, or_assoc]
  | msrp => simp [Kernel.Exempt, Kernel.systemCeiling, or_assoc]

/-- All are eligible exactly if no ceiling is left over. -/
theorem ResidueInv.allEligible_iff (h : ResidueInv k₀ l) (hq : l.Quiescent) :
    l.AllEligible ↔ l.ClearsResidue k₀ := by
  refine forall_congr' fun x => forall_congr' fun hx => ?_
  -- there is a core 0, as `x` is on some core
  have hlt : Priority.queue < l.cores :=
    (Nat.zero_le _).trans_lt (h.wellFormed.core_lt x (by simp [hx]))
  rw [eligible_iff]
  cases l.elector with
  | always => rfl
  | srp => exact or_congr_right (h.systemCeiling_lt_iff (p := .srp) hq rfl rfl _)
  | msrp => exact or_congr_right (h.systemCeiling_lt_iff (p := .msrp) hq rfl hlt _)

end Updated

/-- Where no call is in progress and the resources have their values. -/
theorem Kernel.quiescent_of {k : Kernel} (hcall : ∀ t, k.call t = none)
    (hvalue : ∀ s ∈ k.srpResources ++ k.msrpResources, ¬(k.sem s).value < 1) : k.Quiescent := by
  rintro s hs (⟨t, ht⟩ | hv)
  · simp [hcall] at ht
  · exact hvalue s hs hv

end Epos
