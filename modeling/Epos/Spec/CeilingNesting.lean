import Epos.Spec.Restoration

/-!
# Ceilings under nesting

`toCeiling()` of IPCP and MPCP sets the owner's priority to the ceiling without
looking at the priority that the owner has. A thread that nests critical sections
stays at least as urgent as every ceiling that was applied to it exactly if each
semaphore it acquires, or is handed, has a ceiling at least as urgent as those it
holds already.
-/

namespace Epos

/-- IPCP and MPCP. -/
def Protocol.immediateCeiling : Protocol → Bool
  | .ipcp | .mpcp _ => true
  | _ => false

/-- The immediate ceiling protocols have owners. -/
theorem Protocol.owned_of_immediateCeiling {k : Protocol} (h : k.immediateCeiling) : k.owned := by
  cases k <;> simp_all [Protocol.immediateCeiling, Protocol.owned]

/-- An owner is not touched by those who ask for the semaphore. -/
theorem Protocol.contended_of_immediateCeiling {k : Protocol} (h : k.immediateCeiling)
    (ceiling own p : Int) :
    k.contended ceiling own p = own := by
  cases k <;> simp_all [Protocol.immediateCeiling, Protocol.contended]

namespace Calls

variable {c : Calls} {s s' : Sid} {t x own next : Tid} {q : List Tid}

/-- The priority that `toCeiling()` gave to the owner: the ceiling of an IPCP
    semaphore, the global ceiling of an MPCP one. -/
def applied (c : Calls) (s : Sid) : Int :=
  (c.sem s).protocol.taken (c.ceiling s) (c.sem s).priority

/-- An owner is at least as urgent as the ceiling of each semaphore it holds. -/
def KeepsCeilings (c : Calls) : Prop :=
  ∀ t s, (c.sem s).owner = some t → c.priority t ≤ c.applied s

/-- The ceiling of `s`, applied to `t`, is at least as urgent as those that `t` has. -/
def RaisesTo (c : Calls) (s : Sid) (t : Tid) : Prop :=
  ∀ s' ∈ c.holding t, (c.sem s).protocol.taken (c.ceiling s) (c.priority t) ≤ c.applied s'

/-- A new owner, in `p()` or by a hand-off, is raised by the ceiling that it gets. -/
def RaisesOwner (c : Calls) : CallAction → Prop
  | .p t s => (c.sem s).owner = none → c.RaisesTo s t
  | .v _ s => ∀ next ∈ c.nextThread s, c.RaisesTo s next
  | .ret _ => True

/-! ## One thread -/

/-- `t` is at least as urgent as the ceiling of each semaphore it holds. -/
def Keeps (c : Calls) (t : Tid) : Prop := ∀ s ∈ c.holding t, c.priority t ≤ c.applied s

/-- The ceilings are kept exactly if every thread keeps its own. -/
theorem Inv.keepsCeilings_iff (h : c.Inv) : c.KeepsCeilings ↔ ∀ t, c.Keeps t := by
  constructor
  · exact fun hk t s hs => hk t s (h.mem_holding.mp hs)
  · exact fun hk t s ho => hk t s (h.mem_holding.mpr ho)

/-- In `c'`, all semaphores but `s` save and apply what they did in `c`. -/
def SameBut (c c' : Calls) (s : Sid) : Prop :=
  ∀ s', s' ≠ s → (c'.sem s').priority = (c.sem s').priority ∧ c'.applied s' = c.applied s'

/-- `x` has become the owner of `s`. -/
structure Takes (c c' : Calls) (s : Sid) (x : Tid) : Prop where
  same : SameBut c c' s
  not_mem : s ∉ c.holding x
  holding : c'.holding x = s :: c.holding x
  saved : (c'.sem s).priority = c.priority x
  applied : c'.applied s = c'.priority x
  priority : c'.priority x = (c.sem s).protocol.taken (c.ceiling s) (c.priority x)

/-- `x` has the same semaphores and the same priority, and `s` is not among them. -/
structure Stays (c c' : Calls) (s : Sid) (x : Tid) : Prop where
  same : SameBut c c' s
  not_mem : s ∉ c.holding x
  holding : c'.holding x = c.holding x
  priority : c'.priority x = c.priority x

/-- What each semaphore of `t` restores is at least as urgent as the ceilings below it. -/
def StackedAt (c : Calls) (t : Tid) : Prop :=
  (c.holding t).Pairwise fun s s' => (c.sem s).priority ≤ c.applied s'

/-- The stack only depends on the semaphores that it has. -/
theorem stackedAt_congr {c' : Calls} {l : List Sid} (hsame : SameBut c c' s) (hnot : s ∉ l)
    (h : l.Pairwise fun s s' => (c.sem s).priority ≤ c.applied s') :
    l.Pairwise fun s s' => (c'.sem s).priority ≤ c'.applied s' := by
  refine h.imp_of_mem fun {s₁ s₂} hs₁ hs₂ hle => ?_
  rw [(hsame s₁ fun heq => hnot (heq ▸ hs₁)).1, (hsame s₂ fun heq => hnot (heq ▸ hs₂)).2]
  exact hle

/-- Who takes a semaphore keeps its ceiling exactly if it is raised to it. -/
theorem Takes.keeps_iff {c' : Calls} (h : Takes c c' s x) : c'.Keeps x ↔ c.RaisesTo s x := by
  unfold Keeps RaisesTo
  rw [h.holding, List.forall_mem_cons]
  constructor
  · intro ⟨_, hk⟩ s' hs'
    rw [← h.priority, ← (h.same s' fun heq => h.not_mem (heq ▸ hs')).2]
    exact hk s' hs'
  · intro hr
    refine ⟨le_of_eq h.applied.symm, fun s' hs' => ?_⟩
    rw [h.priority, (h.same s' fun heq => h.not_mem (heq ▸ hs')).2]
    exact hr s' hs'

/-- Who takes a semaphore and keeps its ceilings is stacked. -/
theorem Takes.stackedAt {c' : Calls} (h : Takes c c' s x) (hst : c.StackedAt x)
    (hk : c.Keeps x) : c'.StackedAt x := by
  unfold StackedAt
  rw [h.holding, List.pairwise_cons]
  refine ⟨fun s' hs' => ?_, stackedAt_congr h.same h.not_mem hst⟩
  rw [h.saved, (h.same s' fun heq => h.not_mem (heq ▸ hs')).2]
  exact hk s' hs'

/-- A thread that the step does not concern keeps what it kept. -/
theorem Stays.keeps_iff {c' : Calls} (h : Stays c c' s x) : c'.Keeps x ↔ c.Keeps x := by
  unfold Keeps
  rw [h.holding, h.priority]
  have hsame (s' : Sid) (hs' : s' ∈ c.holding x) : c'.applied s' = c.applied s' :=
    (h.same s' fun heq => h.not_mem (heq ▸ hs')).2
  constructor
  · exact fun hk s' hs' => hsame s' hs' ▸ hk s' hs'
  · exact fun hk s' hs' => (hsame s' hs').symm ▸ hk s' hs'

/-- A thread that the step does not concern stays stacked. -/
theorem Stays.stackedAt {c' : Calls} (h : Stays c c' s x) (hst : c.StackedAt x) :
    c'.StackedAt x := by
  unfold StackedAt
  rw [h.holding]
  exact stackedAt_congr h.same h.not_mem hst

/-! ## Steps -/

/-- The ceiling that applies stays with the priority that was saved. -/
theorem Inv.applied_eq (h : c.Inv) {a : CallAction} (ha : c.CanCall a)
    (hs : ((c.step a).sem s).priority = (c.sem s).priority) :
    (c.step a).applied s = c.applied s := by
  unfold applied
  rw [h.step_protocol ha, h.step_ceiling ha, hs]

/-- `p()` on a free semaphore takes it, and the others stay. -/
theorem Inv.p_free_takes (h : c.Inv) (ht : c.pending t = none) (ho : (c.sem s).owner = none) :
    Takes c (c.step (.p t s)) s t ∧ ∀ x, x ≠ t → Stays c (c.step (.p t s)) s x := by
  have hnot (x : Tid) : s ∉ c.holding x := by simp [h.mem_holding, ho]
  have hhold := h.holding_p_free ht ho
  have hsame : SameBut c (c.step (.p t s)) s := by
    intro s' hs'
    have hsaved : ((c.step (.p t s)).sem s').priority = (c.sem s').priority := by
      simp [h.step_p_free ho, hs']
    exact ⟨hsaved, h.applied_eq ht hsaved⟩
  have hprio : (c.step (.p t s)).priority t =
      (c.sem s).protocol.taken (c.ceiling s) (c.priority t) := by simp [h.step_p_free ho]
  have hsaved : ((c.step (.p t s)).sem s).priority = c.priority t := by simp [h.step_p_free ho]
  refine ⟨⟨hsame, hnot t, by rw [hhold, if_pos rfl], hsaved, ?_, hprio⟩, fun x hx => ?_⟩
  · unfold applied
    rw [h.step_protocol (a := .p t s) ht, h.step_ceiling (a := .p t s) ht, hsaved, hprio]
  · exact ⟨hsame, hnot x, by rw [hhold, if_neg hx], by simp [h.step_p_free ho, hx]⟩

/-- `p()` on a semaphore that another thread owns changes nobody's priority. -/
theorem Inv.p_owned_same (h : c.Inv) (hk : (c.sem s).protocol.immediateCeiling)
    (ht : c.pending t = none) (ho : (c.sem s).owner = some own) (x : Tid) :
    ((c.step (.p t s)).Keeps x ↔ c.Keeps x) ∧
      (c.StackedAt x → (c.step (.p t s)).StackedAt x) := by
  have hsaved (s' : Sid) : ((c.step (.p t s)).sem s').priority = (c.sem s').priority := by
    rw [h.step_p_owned ho]
    by_cases hs : s' = s <;> simp [hs]
  have happ (s' : Sid) : (c.step (.p t s)).applied s' = c.applied s' :=
    h.applied_eq (a := .p t s) ht (hsaved s')
  have hprio : (c.step (.p t s)).priority = c.priority := by
    rw [h.step_p_owned ho]
    simp [Protocol.contended_of_immediateCeiling hk]
  unfold Keeps StackedAt
  simp only [h.holding_p_owned ht ho, hprio, happ, hsaved, true_and, imp_self]

/-- `v()` changes one semaphore. -/
theorem Inv.v_sameBut (h : c.Inv) (ht : c.pending t = none) (hs : s ∈ c.inside t) :
    SameBut c (c.step (.v t s)) s := by
  have ho := h.owner_of_inside hs
  intro s' hs'
  have hsaved : ((c.step (.v t s)).sem s').priority = (c.sem s').priority := by
    cases hq : (c.sem s).queue with
    | nil => simp [h.step_v_last ho hq, hs']
    | cons next q => simp [h.step_v_handoff ho hq, hs']
  exact ⟨hsaved, h.applied_eq ⟨ht, hs⟩ hsaved⟩

/-- The thread that `v()` hands over to. -/
theorem Inv.v_takes (h : c.Inv) (ht : c.pending t = none) (hs : s ∈ c.inside t)
    (hnext : next ∈ c.nextThread s) : Takes c (c.step (.v t s)) s next := by
  have ho := h.owner_of_inside hs
  obtain ⟨q, hq⟩ := List.head?_eq_some_iff.mp hnext
  have hnt : next ≠ t := fun heq => h.not_queued ht s (by simp [hq, heq])
  have hstep := h.step_v_handoff ho hq
  have hsaved : ((c.step (.v t s)).sem s).priority = c.priority next := by simp [hstep, hnt]
  have hprio : (c.step (.v t s)).priority next =
      (c.sem s).protocol.taken (c.ceiling s) (c.priority next) := by simp [hstep, hnt]
  constructor
  case same => exact h.v_sameBut ht hs
  case not_mem =>
    rw [h.mem_holding, ho, Option.some.injEq]
    exact Ne.symm hnt
  case holding =>
    rw [h.holding_v ht hs, if_neg hnt]
    exact if_pos hnext
  case saved => exact hsaved
  case applied =>
    unfold applied
    rw [h.step_protocol (a := .v t s) ⟨ht, hs⟩, h.step_ceiling (a := .v t s) ⟨ht, hs⟩, hsaved,
      hprio]
  case priority => exact hprio

/-- The threads that it does not concern stay. -/
theorem Inv.v_stays (h : c.Inv) (ht : c.pending t = none) (hs : s ∈ c.inside t) (hx : x ≠ t)
    (hnext : c.nextThread s ≠ some x) : Stays c (c.step (.v t s)) s x := by
  have ho := h.owner_of_inside hs
  constructor
  case same => exact h.v_sameBut ht hs
  case not_mem =>
    rw [h.mem_holding, ho, Option.some.injEq]
    exact Ne.symm hx
  case holding => rw [h.holding_v ht hs, if_neg hx, if_neg hnext]
  case priority =>
    cases hq : (c.sem s).queue with
    | nil => simp [h.step_v_last ho hq, hx]
    | cons next q =>
      have hxn : x ≠ next := by
        rintro rfl
        exact hnext (by simp [Sync.nextThread, hq])
      simp [h.step_v_handoff ho hq, hx, hxn]

/-- The caller of `v()` gets the priority back that its latest semaphore saved. -/
theorem Inv.v_caller (h : c.Inv) (ht : c.pending t = none)
    (hs : (c.inside t).head? = some s) (hst : c.StackedAt t) :
    (c.step (.v t s)).Keeps t ∧ (c.step (.v t s)).StackedAt t := by
  have hin : s ∈ c.inside t := List.mem_of_head? hs
  have ho := h.owner_of_inside hin
  have hsame := h.v_sameBut ht hin
  -- s is the last semaphore entered, so what is left was entered before it
  obtain ⟨rest, hrest⟩ : ∃ rest, c.holding t = s :: rest := by
    rw [holding_of_pending_none ht]
    exact List.head?_eq_some_iff.mp hs
  have hnd := h.inside_nodup t
  rw [← holding_of_pending_none ht, hrest, List.nodup_cons] at hnd
  have hhold : (c.step (.v t s)).holding t = rest := by
    rw [h.holding_v ht hin, if_pos rfl, hrest, List.erase_cons_head]
  -- t gets the priority back that s saved
  have hprio : (c.step (.v t s)).priority t = (c.sem s).priority := by
    cases hq : (c.sem s).queue with
    | nil => simp [h.step_v_last ho hq]
    | cons next q =>
      have hnt : t ≠ next := fun heq => h.not_queued ht s (by simp [hq, heq])
      simp [h.step_v_handoff ho hq, hnt]
  unfold StackedAt at hst ⊢
  rw [hrest, List.pairwise_cons] at hst
  unfold Keeps
  rw [hhold, hprio]
  refine ⟨fun s' hs' => ?_, stackedAt_congr hsame hnd.1 hst.2⟩
  rw [(hsame s' fun heq => hnd.1 (heq ▸ hs')).2]
  exact hst.1 s' hs'

/-- The return changes nothing of it. -/
theorem ret_same (hw : c.Woken t s) (x : Tid) :
    ((c.step (.ret t)).Keeps x ↔ c.Keeps x) ∧ ((c.step (.ret t)).StackedAt x ↔ c.StackedAt x) := by
  have hsync : (c.step (.ret t)).toSync = c.toSync := by rw [step_ret hw]
  unfold Keeps StackedAt applied
  simp only [holding_ret hw, hsync, true_and]

/-! ## Runs -/

/-- Every class is IPCP or MPCP, and what is saved fits the ceilings below. -/
structure CeilingInv (c : Calls) : Prop where
  inv : c.Inv
  immediateCeiling : ∀ s, (c.sem s).protocol.immediateCeiling
  stacked : ∀ t, c.StackedAt t

/-- A step that nests keeps the invariant. -/
theorem CeilingInv.preserve (h : c.CeilingInv) (hk : c.KeepsCeilings) {a : CallAction}
    (ha : c.CanCall a) (hl : c.Lifo a) : (c.step a).CeilingInv := by
  have hkeeps := h.inv.keepsCeilings_iff.mp hk
  refine ⟨h.inv.preserve ha, fun s => by rw [h.inv.step_protocol ha]; exact h.immediateCeiling s,
    fun x => ?_⟩
  cases a with
  | p t s =>
    -- a free semaphore is taken by t, and its ceiling is put over what t holds
    cases ho : (c.sem s).owner with
    | none =>
      obtain ⟨htake, hstay⟩ := h.inv.p_free_takes ha ho
      by_cases hx : x = t
      · rw [hx]
        exact htake.stackedAt (h.stacked t) (hkeeps t)
      · exact (hstay x hx).stackedAt (h.stacked x)
    -- an owned one only queues t
    | some own => exact (h.inv.p_owned_same (h.immediateCeiling s) ha ho x).2 (h.stacked x)
  -- v() gives t its saved priority, and the next owner takes the ceiling in turn
  | v t s =>
    by_cases hx : x = t
    · rw [hx]
      exact (h.inv.v_caller ha.1 hl (h.stacked t)).2
    · by_cases hnext : c.nextThread s = some x
      · exact (h.inv.v_takes ha.1 ha.2 hnext).stackedAt (h.stacked x) (hkeeps x)
      · exact (h.inv.v_stays ha.1 ha.2 hx hnext).stackedAt (h.stacked x)
  | ret t =>
    obtain ⟨s, hw⟩ := ha
    exact (ret_same hw x).2.mpr (h.stacked x)

/-- A step keeps the ceilings exactly if it raises the owner. -/
theorem CeilingInv.keepsCeilings_iff (h : c.CeilingInv) (hk : c.KeepsCeilings) {a : CallAction}
    (ha : c.CanCall a) (hl : c.Lifo a) : (c.step a).KeepsCeilings ↔ c.RaisesOwner a := by
  have hkeeps := h.inv.keepsCeilings_iff.mp hk
  rw [(h.inv.preserve ha).keepsCeilings_iff]
  -- only the thread that takes a semaphore may get a ceiling that it does not have
  cases a with
  | p t s =>
    cases ho : (c.sem s).owner with
    | none =>
      obtain ⟨htake, hstay⟩ := h.inv.p_free_takes ha ho
      constructor
      · exact fun h' _ => htake.keeps_iff.mp (h' t)
      · intro hr x
        by_cases hx : x = t
        · rw [hx]
          exact htake.keeps_iff.mpr (hr ho)
        · exact (hstay x hx).keeps_iff.mpr (hkeeps x)
    | some own =>
      refine iff_of_true (fun x => ?_) fun hnone => ?_
      · exact (h.inv.p_owned_same (h.immediateCeiling s) ha ho x).1.mpr (hkeeps x)
      · rw [ho] at hnone
        cases hnone
  -- the caller gives one back, and the next thread takes it
  | v t s =>
    constructor
    · exact fun h' next hnext => (h.inv.v_takes ha.1 ha.2 hnext).keeps_iff.mp (h' next)
    · intro hr x
      by_cases hx : x = t
      · rw [hx]
        exact (h.inv.v_caller ha.1 hl (h.stacked t)).1
      · by_cases hnext : c.nextThread s = some x
        · exact (h.inv.v_takes ha.1 ha.2 hnext).keeps_iff.mpr (hr x hnext)
        · exact (h.inv.v_stays ha.1 ha.2 hx hnext).keeps_iff.mpr (hkeeps x)
  | ret t =>
    obtain ⟨s, hw⟩ := ha
    exact iff_of_true (fun x => (ret_same hw x).1.mpr (hkeeps x)) trivial

instance (c : Calls) (a : CallAction) : Decidable (c.RaisesOwner a) :=
  match a with
  | .p t s =>
    inferInstanceAs (Decidable ((c.sem s).owner = none → ∀ s' ∈ c.holding t,
      (c.sem s).protocol.taken (c.ceiling s) (c.priority t) ≤ c.applied s'))
  | .v _ s =>
    inferInstanceAs (Decidable (∀ next ∈ c.nextThread s, ∀ s' ∈ c.holding next,
      (c.sem s).protocol.taken (c.ceiling s) (c.priority next) ≤ c.applied s'))
  | .ret _ => isTrue trivial

end Calls

/-- Critical sections of IPCP and MPCP semaphores, left in the order opposite to that in
    which they were entered. -/
def ceilingCalls : TransitionSystem Calls CallAction where
  Init c := c.Initial ∧ ∀ s, (c.sem s).protocol.immediateCeiling
  Enabled c a := c.CanCall a ∧ c.Lifo a
  next := Calls.step

instance (c : Calls) (a : CallAction) : Decidable (ceilingCalls.Enabled c a) :=
  inferInstanceAs (Decidable (c.CanCall a ∧ c.Lifo a))

/-- Along a run, owners stay at least as urgent as the ceilings of all semaphores they hold
    if and only if every new owner is raised by the ceiling that it gets. -/
theorem keepsCeilings_iff_raisesOwner (c : Calls) (as : List CallAction)
    (hc : ceilingCalls.Init c) (hv : ceilingCalls.Valid c as) :
    ceilingCalls.Always Calls.KeepsCeilings c as ↔ ceilingCalls.Meets Calls.RaisesOwner c as := by
  have hinv : c.Inv := hc.1.inv fun s => Protocol.owned_of_immediateCeiling (hc.2 s)
  have hnil (t : Tid) : c.holding t = [] := by
    rw [Calls.holding_of_pending_none (hc.1.pending t), hc.1.inside]
  refine TransitionSystem.always_iff_meets_of (I := Calls.CeilingInv) ?_ ?_
    ⟨hinv, hc.2, fun t => ?_⟩ ?_ hv
  · exact fun c a h hk ha => h.preserve hk ha.1 ha.2
  · exact fun c a h hk ha => h.keepsCeilings_iff hk ha.1 ha.2
  · unfold Calls.StackedAt
    rw [hnil]
    exact .nil
  · rw [hinv.keepsCeilings_iff]
    intro t s hs
    rw [hnil] at hs
    cases hs

/-- An IPCP and an MPCP semaphore nested, and a hand-off to a thread that holds one. -/
theorem keepsCeilings_iff_raisesOwner_handoff :
    ceilingCalls.Always Calls.KeepsCeilings
        (Calls.start (fun t => t) (fun s => if s = 1 then .mpcp 3 else .ipcp) fun s => 4 - s)
        [.p 9 0, .p 9 1, .p 5 2, .p 5 1, .v 9 1, .ret 5, .v 5 1, .v 5 2, .v 9 0] ↔
      ceilingCalls.Meets Calls.RaisesOwner
        (Calls.start (fun t => t) (fun s => if s = 1 then .mpcp 3 else .ipcp) fun s => 4 - s)
        [.p 9 0, .p 9 1, .p 5 2, .p 5 1, .v 9 1, .ret 5, .v 5 1, .v 5 2, .v 9 0] :=
  keepsCeilings_iff_raisesOwner _ _
    ⟨Calls.start_initial _ _ _, fun s => by by_cases hs : s = 1 <;> simp [Calls.start, hs] <;> rfl⟩
    (by decide)

/-- Inside a section of ceiling 2, thread 9 enters one of ceiling 5 and runs at 5. -/
theorem not_keepsCeilings_of_reachable : ¬∀ c, ceilingCalls.Reachable c → c.KeepsCeilings := by
  intro h
  have hr : ceilingCalls.Reachable (ceilingCalls.run
      (Calls.start (fun t => t) (fun _ => .ipcp) fun s => if s = 0 then 2 else 5)
      [.p 9 0, .p 9 1]) :=
    TransitionSystem.Valid.reachable (by decide)
      (.init ⟨Calls.start_initial _ _ _, fun _ => rfl⟩)
  exact absurd (h _ hr 9 0 (by decide)) (by decide)

end Epos
