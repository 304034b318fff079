import Epos.Spec.SortedQueues
import Epos.Spec.SystemCeiling

/-!
# Preemption on release

A `v()` gives the caller's priority back and, in SRP, lowers the system ceiling. It
reaches a scheduling point only by waking up a thread that waits for the same
semaphore, so that a ready thread which was held off by the ceiling alone stays
ready. Where a thread is woken up, `choose()` is asked: if it lets the caller run on,
or takes it again later, no ready thread is more urgent (`ReleaseInv.ahead`).
-/

namespace Epos

/-- The classes whose `p()` and `v()` do not change the rank of a listed thread, on
    one core. -/
def Protocol.immediate : Protocol → Bool
  | .pip | .pcp | .msrp => false
  | .condition | .plain | .ipcp | .mpcp _ | .srp => true

namespace Kernel

variable {k k' : Kernel} {c cpu : Nat} {s : Sid} {t u r n x : Tid} {st : State}

/-! ## Returning from `v()` -/

/-- `t` is inside a `v()` on a resource. -/
def Releasing (k : Kernel) (t : Tid) : Bool :=
  match k.call t with
  | some (.v s) => (k.sem s).protocol.resource
  | _ => false

/-- The step `a` ends in the return of `t` from a `v()` on a resource. -/
def ReturnsFromV (k : Kernel) (a : Action) (t : Tid) : Prop :=
  ((∃ s, a = .v t s ∧ (k.sem s).protocol.resource) ∨ (a = .ret t ∧ k.Releasing t)) ∧
    (k.step a).call t = none

/-- No ready thread of the core of `t` that is eligible is more urgent than `t`. -/
def Settled (k : Kernel) (t : Tid) : Prop :=
  ∀ x, k.state x = some .ready → k.core x = k.core t → k.eligible (k.core t) x →
    k.priority t ≤ k.priority x

/-! ## What `v()` leaves -/

/-- The priority of `t` after a `v()` on `s`. -/
def restored (k : Kernel) (t : Tid) (s : Sid) : Int :=
  if (k.sem s).protocol.owned ∧ (k.sem s).owner = some t then (k.sem s).priority
  else k.priority t

/-- The ranks after a `v()` on `s` by `t`: the caller's and, where it owned `s`, the one
    of the thread that it hands `s` over to. -/
def ranksOnV (k : Kernel) (t : Tid) (s : Sid) : Tid → Int :=
  let rank := Function.update k.priority t (k.restored t s)
  match (k.sem s).queue with
  | [] => rank
  | u :: _ =>
    if (k.sem s).protocol.owned ∧ (k.sem s).owner = some t then
      Function.update rank u ((k.sem s).protocol.taken (k.ceiling s) (rank u))
    else rank

/-- The kernel in which `s` no longer counts in the system ceiling. -/
def freed (k : Kernel) (s : Sid) : Kernel :=
  if (k.sem s).protocol = .srp then
    { k with
      srpCeiling := (k.setCeilings s (Function.update (k.store (k.sem s).ceilings) 0
        defaultCeiling)).maxResource 0 k.srpResources }
  else k

/-- The ranks after a `v()`. -/
theorem v_ranks (k : Kernel) (t : Tid) (s : Sid) :
    (k.toSync.v s t).1.priority = k.ranksOnV t s := by
  unfold ranksOnV restored
  by_cases hk : (k.sem s).protocol.owned
  · by_cases ho : (k.sem s).owner = some t
    · cases hq : (k.sem s).queue with
      | nil => simp [Sync.v_last hk ho hq, hk, ho]
      | cons u q => simp [Sync.v_handoff hk ho hq, hk, ho]
    · rw [Sync.v_other hk ho]
      cases (k.sem s).queue <;> simp [ho]
  · rw [(Sync.v_of_not_owned hk).1]
    cases (k.sem s).queue <;> simp [hk]

/-! ## The condition -/

/-- A `v()` that nobody waits for finds no ready thread that is more urgent than the
    priority it restores and eligible without `s`. One that wakes a thread up finds
    the head of the ready list eligible or, unless it lowers the system ceiling, no
    eligible thread that is more urgent. The list is the queue of `s`. -/
def FreesNone (k : Kernel) (t : Tid) (s : Sid) : List Tid → Prop
  | [] => ∀ x ∈ (k.sched (k.core t)).list, (k.freed s).eligible (k.core t) x →
      k.restored t s ≤ k.priority x
  | u :: _ =>
    let k' := { k with priority := k.ranksOnV t s }
    (∀ x ∈ ((k.sched (k.core t)).list.insertRank k'.priority u).head?, k'.eligible (k.core t) x) ∨
      ((k.sem s).protocol ≠ .srp ∧ ∀ x ∈ u :: (k.sched (k.core t)).list,
        k'.eligible (k.core t) x → k'.priority t ≤ k'.priority x)

/-- A `v()` on a resource meets `FreesNone`. A handler that interrupts the return from
    one wakes up an eligible thread or one that is not more urgent. -/
def NoneHeldOff (k : Kernel) : Action → Prop
  | .v t s => (k.sem s).protocol.resource → k.FreesNone t s (k.sem s).queue
  | .handler c s =>
    ∀ r ∈ k.running c, ∀ u ∈ (k.sem s).queue.head?, k.Releasing r →
      k.priority r ≤ k.priority u ∨ k.eligible c u
  | _ => True

instance (k : Kernel) (t : Tid) (s : Sid) (q : List Tid) : Decidable (k.FreesNone t s q) := by
  unfold FreesNone
  cases q <;> infer_instance

instance (k : Kernel) (a : Action) : Decidable (k.NoneHeldOff a) :=
  match a with
  | .v t s =>
    inferInstanceAs (Decidable ((k.sem s).protocol.resource → k.FreesNone t s (k.sem s).queue))
  | .handler c s =>
    inferInstanceAs (Decidable (∀ r ∈ k.running c, ∀ u ∈ (k.sem s).queue.head?, k.Releasing r →
      k.priority r ≤ k.priority u ∨ k.eligible c u))
  | .p _ _ | .ret _ | .create _ _ _ | .yield _ | .exit _ | .join _ _ | .suspend _ _
  | .resume _ _ | .reschedule _ | .priority _ _ _ | .update _ _ => isTrue trivial

/-! ## The invariant -/

/-- One core and semaphores that leave the ready list sorted. -/
structure ImmediateCore (k : Kernel) : Prop where
  wellFormed : k.WellFormed
  counted : k.toSync.Counted
  sorted : k.Sorted
  oneCore : k.OneCore
  kind : ∀ s, (k.sem s).protocol.immediate

/-- Nothing that is ready is more urgent than a running thread inside a `v()`. -/
def Ahead (k : Kernel) : Prop :=
  ∀ r, k.running 0 = some r → k.Releasing r → ∀ x ∈ (k.sched 0).list, k.priority r ≤ k.priority x

/-- With immediate protocols no rank is raised in place. -/
theorem ImmediateCore.ranksFit (h : k.ImmediateCore) : k.RanksFit (.p t s) := by
  simp only [RanksFit]
  cases ho : (k.sem s).owner with
  | none => trivial
  | some own =>
    intro _
    have hsame : (k.sem s).protocol.contended (k.ceiling s) (k.priority own) (k.priority t) =
        k.priority own := by
      have hk := h.kind s
      cases hp : (k.sem s).protocol <;> simp_all [Protocol.contended, Protocol.immediate]
    rw [hsame]
    refine ⟨(h.sorted.list _).fitsAt_self own, ?_⟩
    split
    · rename_i s' _
      refine (h.sorted.queue s' fun hm => ?_).fitsAt_self own
      have hk := h.kind s'
      rw [hm] at hk
      cases hk
    · trivial

/-- A thread that `choose()` takes, or that it leaves where nothing is more urgent or
    the head is eligible, is at least as urgent as all that is ready then. -/
theorem Sorted.reschedule_ahead (h : k.Sorted) (hr : k.running c = some r)
    (hn : (k.reschedule c).running c = some n)
    (hcase : n ≠ r ∨ (∃ y q, (k.sched c).list = y :: q ∧ k.eligible c y) ∨
      ∀ x ∈ (k.sched c).list, k.priority r ≤ k.priority x)
    (hx : x ∈ ((k.reschedule c).sched c).list) : k.priority n ≤ k.priority x := by
  have hsched := reschedule_sched hr c
  rw [if_pos rfl] at hsched
  rw [running, hsched] at hn
  rw [hsched] at hx
  have hmem : x ∈ (k.sched c).toList :=
    SchedulingList.choose_perm.mem_iff.mp (SchedulingList.mem_toList_of_list hx)
  by_cases hhead : ∃ y q, (k.sched c).list = y :: q ∧ k.eligible c y
  · obtain ⟨y, q, hl, hel⟩ := hhead
    obtain ⟨m, hm, hle⟩ := SchedulingList.choose_urgent (h.list c) hr hl hel
    rw [hn] at hm
    obtain rfl := Option.some.inj hm
    exact hle x hmem
  · -- then nothing changes
    have hself : (k.sched c).choose k.priority (k.eligible c) = k.sched c := by
      refine SchedulingList.choose_eq_self fun y q hl => ?_
      by_contra hel
      exact hhead ⟨y, q, hl, by simpa using hel⟩
    rw [hself] at hn hx
    rw [running, hn] at hr
    obtain rfl := Option.some.inj hr
    rcases hcase with hne | hhead' | hmin
    · exact absurd rfl hne
    · exact absurd hhead' hhead
    · exact hmin x hx

/-- A thread that leaves its core leaves it to a most urgent one. -/
theorem Sorted.leave_ahead (h : k.Sorted) (hr : k.running (k.core t) = some t)
    (hn : (k.leave t st).running (k.core t) = some n)
    (hx : x ∈ ((k.leave t st).sched (k.core t)).list) : k.priority n ≤ k.priority x := by
  refine h.leave_running hr hn x ?_
  rw [leave_sched, if_pos rfl, SchedulingList.remove_chosen hr] at hx
  exact List.mem_of_mem_tail hx

/-- Every step keeps the invariant. -/
theorem ImmediateCore.step (h : k.ImmediateCore) {a : Action} (ha : k.CanAct a)
    (hfit : k.RanksFit a) : (k.step a).ImmediateCore where
  wellFormed := h.wellFormed.step ha
  counted := h.counted.step
  sorted := h.sorted.step h.wellFormed h.counted ha hfit
  oneCore := h.oneCore.congr (k.step_toSystem a)
  kind s := by
    rw [step_protocol]
    exact h.kind s

/-- A thread that has returned is not inside a `v()`. -/
theorem ahead_complete (hr : k.running 0 = some t) : (k.complete t).Ahead := by
  intro r hr' hrel
  rw [complete_running, hr] at hr'
  obtain rfl := Option.some.inj hr'
  rw [Releasing, complete_call] at hrel
  cases hrel

/-- A move begins and ends no `v()`. -/
theorem Frame.releasing (h : Frame k k') : k'.Releasing = k.Releasing := by
  funext x
  simp only [Releasing, h.call, h.toSync]

/-- A switch to another thread, or a `choose()` that nothing escapes, keeps the law. -/
theorem Sorted.ahead_reschedule (h : k.Sorted) (hr : k.running 0 = some r)
    (hcase : (k.reschedule 0).running 0 = some r → k.Releasing r →
      (∃ y q, (k.sched 0).list = y :: q ∧ k.eligible 0 y) ∨
        ∀ x ∈ (k.sched 0).list, k.priority r ≤ k.priority x) : (k.reschedule 0).Ahead := by
  have hframe := frame_reschedule k 0
  intro n hn hrel x hx
  rw [hframe.releasing] at hrel
  rw [hframe.toSync]
  refine h.reschedule_ahead hr hn ?_ hx
  by_cases hne : n = r
  · subst hne
    exact .inr (hcase hn hrel)
  · exact .inl hne

/-- The running thread `r` and a thread `u` that becomes ready. -/
theorem ImmediateCore.ahead_enter (h : k.ImmediateCore) (hr : k.running 0 = some r)
    (hcase : (k.enter 0 u).running 0 = some r → k.Releasing r →
      (∀ x ∈ (k.sched 0).list, k.priority r ≤ k.priority x) ∧
        (k.priority r ≤ k.priority u ∨ k.eligible 0 u)) : (k.enter 0 u).Ahead := by
  have hin : ((k.setState u .ready).insert u).Sorted := h.sorted.setState.insert
  have hcore : k.core u = 0 := h.oneCore.core u
  have hlist : (((k.setState u .ready).insert u).sched 0).list =
      (k.sched 0).list.insertRank k.priority u := by
    rw [insert_sched]
    show (if 0 = k.core u then (k.sched (k.core u)).insert k.priority u else k.sched 0).list = _
    rw [hcore, if_pos rfl, SchedulingList.insert_chosen hr]
  have hrun : ((k.setState u .ready).insert u).running 0 = some r := by
    rw [insert_running]
    · exact hr
    · show (k.running (k.core u)).isSome
      rw [hcore, hr]
      rfl
  have helig (x : Tid) : ((k.setState u .ready).insert u).eligible 0 x = k.eligible 0 x := by
    simp only [eligible, hrun, hr]
    rfl
  rw [h.oneCore.enter_eq] at hcase ⊢
  refine hin.ahead_reschedule hrun fun hrun' hrel => ?_
  obtain ⟨hmin, hu⟩ := hcase hrun' hrel
  rw [hlist]
  by_cases hle : k.priority r ≤ k.priority u
  · right
    intro x hx
    rcases List.mem_insertRank.mp hx with rfl | hx
    · exact hle
    · exact hmin x hx
  · -- `u` comes to the head of the list
    left
    refine ⟨u, (k.sched 0).list, ?_, by rw [helig]; exact hu.resolve_left hle⟩
    cases hl : (k.sched 0).list with
    | nil => rfl
    | cons y q =>
      have := hmin y (by rw [hl]; exact List.mem_cons_self)
      rw [List.insertRank_cons, if_neg (by omega)]

/-! ## Steps -/

/-- Threads act on their own behalf: only a thread that is not inside a call creates
    others. -/
def Acts (k : Kernel) : Action → Prop
  | .p _ _ | .v _ _ | .ret _ | .reschedule _ | .handler _ _ => True
  | .create c _ _ => ∀ r ∈ k.running c, k.call r = none
  | .yield _ | .exit _ | .join _ _ | .suspend _ _ | .resume _ _ | .priority _ _ _
  | .update _ _ => False

instance (k : Kernel) (a : Action) : Decidable (k.Acts a) :=
  match a with
  | .p _ _ | .v _ _ | .ret _ | .reschedule _ | .handler _ _ => isTrue trivial
  | .create c _ _ => inferInstanceAs (Decidable (∀ r ∈ k.running c, k.call r = none))
  | .yield _ | .exit _ | .join _ _ | .suspend _ _ | .resume _ _ | .priority _ _ _
  | .update _ _ => isFalse id

/-- `p()` keeps the running thread ahead. -/
theorem ImmediateCore.ahead_p (h : k.ImmediateCore) (hr : k.running 0 = some t) :
    (k.p t s).Ahead := by
  have hr' : k.running (k.core t) = some t := by rw [h.oneCore.core]; exact hr
  obtain ⟨hl, hq⟩ := h.sorted.sync_p h.wellFormed hr' h.ranksFit (s := s)
  have hcall : (k.callP t s).Sorted := ⟨hl, hq⟩
  have hcore : (k.callP t s).core t = 0 := h.oneCore.core t
  unfold Kernel.p
  split
  · intro n hn _ x hx
    rw [(frame_leave _ _ _).toSync]
    rw [← hcore] at hn hx
    refine hcall.leave_ahead ?_ hn hx
    rw [hcore]
    exact hr
  · exact ahead_complete hr

/-- A `v()` that wakes a thread keeps the invariant. -/
theorem ImmediateCore.callV (h : k.ImmediateCore) (hr : k.running 0 = some t)
    (hw : (k.toSync.v s t).2 = some u) : (k.callV t s).ImmediateCore where
  wellFormed :=
    (h.wellFormed.woken hr (show (k.callV t s).toSync = _ from rfl) hw rfl rfl rfl rfl
      fun x hx => Function.update_of_ne hx _ _).1
  counted := h.counted.v
  sorted := by
    obtain ⟨hl, hq⟩ := h.sorted.sync_v h.wellFormed h.counted (by rwa [h.oneCore.core]) (s := s)
    exact ⟨hl, hq⟩
  oneCore := h.oneCore.congr rfl
  kind x := by
    rw [show ((k.callV t s).sem x).protocol = _ from Sync.v_protocol k.toSync s t x]
    exact h.kind x

/-- `v()` keeps the running thread ahead. -/
theorem ImmediateCore.ahead_v (h : k.ImmediateCore) (hr : k.running 0 = some t) :
    (k.v t s).Ahead := by
  unfold Kernel.v
  split
  · exact ahead_complete hr
  · rename_i u hw
    dsimp only
    rw [h.oneCore.core, show ((k.callV t s).enter 0 u).core t = 0 by
      rw [(frame_enter _ _ _).toSystem]
      exact h.oneCore.core t]
    split
    · rename_i hrun
      exact ahead_complete hrun
    · rename_i hrun
      exact (h.callV hr hw).ahead_enter hr fun hrun' => absurd hrun' hrun

/-- `v()` on a semaphore without an owner leaves the calls where they are. -/
theorem interruptV_releasing (k : Kernel) (t : Tid) (s : Sid) :
    (k.interruptV t s).Releasing = k.Releasing := by
  funext x
  show (match k.call x with
    | some (.v s') => (((k.toSync.v s t).1.sem s').protocol.resource : Bool)
    | _ => false) = _
  simp only [Sync.v_protocol]
  rfl

/-- An interrupt inside of `v()` finds the invariant. -/
theorem ImmediateCore.interruptV (h : k.ImmediateCore) (hr : k.running 0 = some t)
    (hw : (k.toSync.v s t).2 = some u) : (k.interruptV t s).ImmediateCore where
  wellFormed :=
    (h.wellFormed.woken hr (show (k.interruptV t s).toSync = _ from rfl) hw rfl rfl rfl rfl
      fun _ _ => rfl).1
  counted := h.counted.v
  sorted := by
    obtain ⟨hl, hq⟩ := h.sorted.sync_v h.wellFormed h.counted (by rwa [h.oneCore.core]) (s := s)
    exact ⟨hl, hq⟩
  oneCore := h.oneCore.congr rfl
  kind x := by
    rw [show ((k.interruptV t s).sem x).protocol = _ from Sync.v_protocol k.toSync s t x]
    exact h.kind x

/-- A handler keeps the running thread ahead unless it is held off. -/
theorem ImmediateCore.ahead_handler (h : k.ImmediateCore) (hahead : k.Ahead)
    (hs : ¬(k.sem s).protocol.resource) (hc : k.NoneHeldOff (.handler 0 s)) :
    (k.handler 0 s).Ahead := by
  -- a semaphore that is no resource changes no priority
  have hprio (t : Tid) : (k.toSync.v s t).1.priority = k.priority :=
    (Sync.v_of_not_owned (owned_of_not_resource hs)).1
  unfold Kernel.handler
  split
  · exact hahead
  · rename_i r hr
    have hmin (hrel : (k.interruptV r s).Releasing r) :
        ∀ x ∈ (k.sched 0).list, (k.interruptV r s).priority r ≤ (k.interruptV r s).priority x := by
      rw [interruptV_releasing] at hrel
      rw [show (k.interruptV r s).priority = k.priority from hprio r]
      exact hahead r hr hrel
    split
    · -- nobody was woken, and the running thread stays ahead
      intro n hn hrel
      obtain rfl : n = r := Option.some.inj (hn.symm.trans hr)
      exact hmin hrel
    · rename_i u hw
      -- the woken thread enters the list, and the condition is about it
      refine (h.interruptV hr hw).ahead_enter hr fun _ hrel => ⟨hmin hrel, ?_⟩
      rw [interruptV_releasing] at hrel
      rw [h.counted.v_woken] at hw
      have := hc r hr u hw hrel
      rwa [show (k.interruptV r s).priority = k.priority from hprio r,
        show (k.interruptV r s).eligible 0 u = k.eligible 0 u by
          simp only [eligible, show (k.interruptV r s).priority = k.priority from hprio r]
          rfl]

/-- The constructor of a thread keeps the running thread ahead. -/
theorem ImmediateCore.ahead_create (h : k.ImmediateCore) (ha : k.CanAct (.create 0 t st))
    (hcall : ∀ r ∈ k.running 0, k.call r = none) : (k.create 0 t st).Ahead := by
  obtain ⟨r, hr⟩ := Option.isSome_iff_exists.mp (h.wellFormed.isSome 0 ha.1)
  obtain ⟨hns, -, -⟩ := h.wellFormed.unborn ha.2.1
  -- a thread that is not in v() has nothing to stay ahead of
  have hsame (k' : Kernel) (hrun : k'.running 0 = some r) (hcall' : k'.call = k.call) : k'.Ahead := by
    intro n hn hrel
    rw [hrun] at hn
    obtain rfl := Option.some.inj hn
    rw [Releasing, hcall', hcall r hr] at hrel
    cases hrel
  -- the new thread is ready, or suspended
  rcases ha.2.2.2 with rfl | rfl
  · have hin : ((k.setState t .ready).insert t).Sorted := h.sorted.setState.insert
    have hrun : ((k.setState t .ready).insert t).running 0 = some r := by
      rw [insert_running]
      · exact hr
      · exact h.wellFormed.isSome _ ha.2.2.1
    unfold Kernel.create
    simp only [ne_eq, not_true_eq_false, reduceCtorEq, false_and, if_false]
    split
    · rw [(h.oneCore.congr rfl : ((k.setState t .ready).insert t).OneCore).preempt_eq]
      refine hin.ahead_reschedule hrun fun _ hrel => ?_
      change k.Releasing r = true at hrel
      rw [Releasing, hcall r hr] at hrel
      cases hrel
    · exact hsame _ hrun rfl
  · rw [create_suspended h.wellFormed.toPlaced hns ha.2.2.1]
    exact hsame _ hr rfl

/-- The law is kept by every step of a run. -/
theorem ImmediateCore.ahead_step (h : k.ImmediateCore) (hahead : k.Ahead) {a : Action}
    (ha : k.CanAct a) (hacts : k.Acts a) (hc : k.NoneHeldOff a) : (k.step a).Ahead := by
  have hrun {t : Tid} (hr : k.running (k.core t) = some t) : k.running 0 = some t := by
    rwa [h.oneCore.core] at hr
  have hcore {c : Nat} (hlt : c < k.cores) : c = 0 := by
    have := h.oneCore.cores
    omega
  -- calls that give the core up are excluded: the running thread keeps it
  cases a with
  | p t s => exact h.ahead_p (hrun ha.1.1)
  | v t s => exact h.ahead_v (hrun ha.1)
  | ret t => exact ahead_complete (hrun ha.1)
  | create c t st =>
    obtain rfl := hcore ha.1
    exact h.ahead_create ha hacts
  | reschedule c =>
    obtain rfl := hcore ha
    obtain ⟨r, hr⟩ := Option.isSome_iff_exists.mp (h.wellFormed.isSome 0 ha)
    exact h.sorted.ahead_reschedule hr fun _ hrel => .inr (hahead r hr hrel)
  | handler c s =>
    obtain rfl := hcore ha.1
    exact h.ahead_handler hahead ha.2 hc
  | yield t => exact hacts.elim
  | exit t => exact hacts.elim
  | join t u => exact hacts.elim
  | suspend t u => exact hacts.elim
  | resume c u => exact hacts.elim
  | priority c u prio => exact hacts.elim
  | update u elapsed => exact hacts.elim

/-! ## Returns -/

/-- Who is ahead of the eligible threads of its list is settled. -/
theorem settled_of_list (hwf : k.WellFormed)
    (h : ∀ x ∈ (k.sched (k.core t)).list, k.eligible (k.core t) x → k.priority t ≤ k.priority x) :
    k.Settled t :=
  fun x hst hcore => h x (hwf.mem_list_iff.mpr ⟨hst, hcore⟩)

/-- The return changes no priority and no list. -/
theorem complete_sched (k : Kernel) (t : Tid) :
    (k.complete t).sched = k.sched ∧ (k.complete t).priority = k.priority ∧
      (k.complete t).toSystem = k.toSystem := by
  obtain ⟨_, _, _, _, heq⟩ := complete_eq k t
  rw [heq]
  exact ⟨rfl, rfl, rfl⟩

/-- MSRP is no immediate protocol. -/
theorem Protocol.ne_msrp_of_immediate {p : Protocol} (h : p.immediate) : p ≠ .msrp := by
  rintro rfl
  cases h

/-- The system ceiling after a `v()` that wakes nobody up. -/
theorem ImmediateCore.freed_eligible (h : k.ImmediateCore) (hq : (k.sem s).queue = [])
    (hx : (k.toSync.v s t).1.priority x = k.priority x) :
    ((k.callV t s).complete t).eligible c x = (k.freed s).eligible c x := by
  have hprot : ((k.toSync.v s t).1.sem s).protocol = (k.sem s).protocol :=
    Sync.v_protocol k.toSync s t s
  have hcall : (k.callV t s).call t = some (.v s) := Function.update_self _ _ _
  unfold freed
  by_cases hs : (k.sem s).protocol = .srp
  · have hv : (k.toSync.v s t).1 = k.toSync.modify s fun m =>
        { m with value := m.value + 1
                 queue := if m.value < 0 then m.queue.tail else m.queue } := by
      rw [Sync.v, hs]
      exact congrArg Prod.fst (Sync.template_v_eq k.toSync s)
    have hlen := h.counted s (by simp [hs])
    rw [hq, List.length_nil] at hlen
    -- nobody waits, so `s` is free after its `v()` and does not count
    have hfree : ¬(((k.callV t s).endCall t).sem s).value < 1 := by
      show ¬((k.toSync.v s t).1.sem s).value < 1
      rw [hv, Sync.modify_sem, Function.update_self]
      show ¬(k.sem s).value + 1 < 1
      omega
    rw [if_pos hs]
    unfold Kernel.complete
    rw [hcall]
    dsimp only
    unfold updateCeiling
    rw [show (((k.callV t s).endCall t).sem s).protocol = .srp from hprot.trans hs]
    refine eligible_congr rfl hx rfl ?_ rfl
    show (updateSrpCeiling ((k.callV t s).endCall t) s).srpCeiling = _
    unfold updateSrpCeiling
    dsimp only
    rw [maxCeil_of_free hfree]
    have hceilings (y : Sid) : (((k.callV t s).endCall t).sem y).ceilings = (k.sem y).ceilings := by
      show ((k.toSync.v s t).1.sem y).ceilings = _
      rw [hv, Sync.modify_sem]
      by_cases hy : y = s
      · subst hy
        rw [Function.update_self]
      · rw [Function.update_of_ne hy]
    have hstore : ((k.callV t s).endCall t).store = k.store := by
      show (k.toSync.v s t).1.store = k.store
      rw [hv, Sync.modify_store]
    refine maxResource_congr fun y _ => ?_
    simp only [Sync.ceiling, setCeilings, hceilings, hstore]
  · rw [if_neg hs, complete_v_eq hcall (by rwa [← hprot] at hs)
      (Protocol.ne_msrp_of_immediate (hprot ▸ h.kind s))]
    exact eligible_congr rfl hx rfl rfl rfl

/-- A `v()` on a semaphore that nobody waits for. -/
theorem ImmediateCore.settled_v (h : k.ImmediateCore) (ha : k.CanAct (.v t s))
    (hw : (k.toSync.v s t).2 = none) (hc : k.FreesNone t s (k.sem s).queue) :
    (k.v t s).Settled t := by
  have hr : k.running (k.core t) = some t := ha.1
  have hwf : (k.v t s).WellFormed := h.wellFormed.v hr
  -- nobody was woken, so nobody was queued and no ceiling changes
  have hq : (k.sem s).queue = [] := by
    rw [h.counted.v_woken] at hw
    exact List.head?_eq_none_iff.mp hw
  rw [hq] at hc
  have hv : k.v t s = (k.callV t s).complete t := by
    unfold Kernel.v
    rw [hw]
  obtain ⟨hsched, hprio, hsys⟩ := complete_sched (k.callV t s) t
  have hranks : (k.toSync.v s t).1.priority =
      Function.update k.priority t (k.restored t s) := by
    rw [v_ranks, ranksOnV, hq]
  rw [hv] at hwf ⊢
  refine settled_of_list hwf fun x hx hel => ?_
  rw [hsys] at hx hel
  rw [hsched] at hx
  -- the releasing thread runs, so it is in no ready list
  have hxt : x ≠ t := by
    rintro rfl
    exact (h.wellFormed.absent hr).1 _ hx
  have hxp : (k.toSync.v s t).1.priority x = k.priority x := by
    rw [hranks, Function.update_of_ne hxt]
  rw [h.freed_eligible hq hxp] at hel
  have := hc x hx hel
  rw [hprio]
  show (k.toSync.v s t).1.priority t ≤ (k.toSync.v s t).1.priority x
  rw [hxp, hranks, Function.update_self]
  exact this

/-- A `v()` that wakes `u` up and goes on. -/
theorem ImmediateCore.settled_wakeup (h : k.ImmediateCore) (ha : k.CanAct (.v t s))
    (hw : (k.toSync.v s t).2 = some u)
    (hrun : ((k.callV t s).enter 0 u).running 0 = some t)
    (hc : k.FreesNone t s (k.sem s).queue) : (((k.callV t s).enter 0 u).complete t).Settled t := by
  have hr : k.running 0 = some t := by rw [← h.oneCore.core t]; exact ha.1
  have hcall := h.callV hr hw
  obtain ⟨-, hns, hlt, hq, hj⟩ := h.wellFormed.woken hr
    (show (k.callV t s).toSync = _ from rfl) hw rfl rfl rfl rfl
    fun x hx => Function.update_of_ne hx _ _
  have hwf : (((k.callV t s).enter 0 u).complete t).WellFormed := by
    have := hcall.wellFormed.enter (c := 0) hns hlt hq hj
    exact this.complete (.inl (this.state_of_running hrun).1)
  obtain ⟨hsched, hprio, hsys⟩ := complete_sched ((k.callV t s).enter 0 u) t
  obtain ⟨w, hqueue⟩ : ∃ w, (k.sem s).queue = u :: w := by
    rw [h.counted.v_woken] at hw
    exact List.head?_eq_some_iff.mp hw
  rw [hqueue] at hc
  -- the kernel in which `choose()` is asked
  obtain ⟨k₁, hk₁⟩ : ∃ k₁, ((k.callV t s).setState u .ready).insert u = k₁ := ⟨_, rfl⟩
  have hframe : Frame (k.callV t s) k₁ := by
    rw [← hk₁]
    exact (frame_setState _ _ _).trans (frame_setSched _ _ _)
  have hsort₁ : k₁.Sorted := by
    rw [← hk₁]
    exact hcall.sorted.setState.insert
  have hcoreu : (k.callV t s).core u = 0 := h.oneCore.core u
  have hlist : (k₁.sched 0).list = (k.sched 0).list.insertRank (k.ranksOnV t s) u := by
    rw [← hk₁, insert_sched, ← v_ranks]
    show (if 0 = k.core u then (k.sched (k.core u)).insert (k.toSync.v s t).1.priority u
      else k.sched 0).list = _
    rw [show k.core u = 0 from hcoreu, if_pos rfl, SchedulingList.insert_chosen hr]
  have hrun₁ : k₁.running 0 = some t := by
    rw [← hk₁, insert_running]
    · exact hr
    · show (k.running ((k.callV t s).core u)).isSome
      rw [hcoreu, hr]
      rfl
  have hprio₁ : k₁.priority = k.ranksOnV t s := by
    rw [hframe.toSync]
    exact v_ranks k t s
  have helig (x : Tid) : k₁.eligible 0 x = ({ k with priority := k.ranksOnV t s } : Kernel).eligible 0 x := by
    obtain ⟨st, sc, heq⟩ := hframe
    refine eligible_congr ?_ (by rw [hprio₁]) (hrun₁.trans hr.symm) ?_ ?_ <;> rw [heq] <;> rfl
  have henter : (k.callV t s).enter 0 u = k₁.reschedule 0 := by rw [hcall.oneCore.enter_eq, hk₁]
  rw [henter] at hwf hsched hprio hsys hrun ⊢
  have hcore : ((k₁.reschedule 0).complete t).core t = 0 := by
    rw [hsys, (frame_reschedule k₁ 0).toSystem, hframe.toSystem]
    exact h.oneCore.core t
  refine settled_of_list hwf fun x hx hel => ?_
  rw [hcore] at hx hel
  rw [hsched] at hx
  rw [hprio, (frame_reschedule k₁ 0).toSync]
  by_cases hhead : ∃ y q, (k₁.sched 0).list = y :: q ∧ k₁.eligible 0 y
  · exact hsort₁.reschedule_ahead hrun₁ hrun (.inr (.inl hhead)) hx
  · -- nothing changes, and nothing eligible is more urgent than the caller
    obtain ⟨hs, hmin⟩ := hc.resolve_left fun hel' => by
      cases hl : (k₁.sched 0).list with
      | nil =>
        have hlen := List.length_insertRank (k.ranksOnV t s) u (k.sched 0).list
        rw [← hlist, hl] at hlen
        cases hlen
      | cons y q =>
        refine hhead ⟨y, q, hl, ?_⟩
        rw [helig]
        rw [h.oneCore.core t] at hel'
        refine hel' y ?_
        rw [show (k.sched 0).list.insertRank _ u = y :: q by rw [← hlist, hl]]
        rfl
    have hself : (k₁.sched 0).choose k₁.priority (k₁.eligible 0) = k₁.sched 0 := by
      refine SchedulingList.choose_eq_self fun y q hl => ?_
      by_contra hel'
      exact hhead ⟨y, q, hl, by simpa using hel'⟩
    rw [reschedule_sched hrun₁, if_pos rfl, hself, hlist] at hx
    obtain ⟨st, sc, heq⟩ := (hframe.trans (frame_reschedule k₁ 0))
    have hprot : ((k₁.reschedule 0).sem s).protocol = (k.sem s).protocol := by
      rw [heq]
      exact Sync.v_protocol k.toSync s t s
    have hcallt : (k₁.reschedule 0).call t = some (.v s) := by
      rw [heq]
      exact Function.update_self _ _ _
    rw [complete_v_eq hcallt (by rwa [hprot])
      (by rw [hprot]; exact Protocol.ne_msrp_of_immediate (h.kind s))] at hel
    have hel₁ : k₁.eligible 0 x := by
      rw [← (frame_reschedule k₁ 0).eligible (hrun.trans hrun₁.symm)]
      exact hel
    rw [hprio₁]
    rw [h.oneCore.core t] at hmin
    exact hmin x (List.mem_cons.mpr (List.mem_insertRank.mp hx)) (by rwa [helig] at hel₁)

/-- Every return from a `v()` leaves nothing eligible that is more urgent. -/
theorem ImmediateCore.settled_step (h : k.ImmediateCore) (hahead : k.Ahead) {a : Action}
    (ha : k.CanAct a) (hc : k.NoneHeldOff a) (hret : k.ReturnsFromV a t) :
    (k.step a).Settled t := by
  obtain ⟨⟨s, rfl, hs⟩ | ⟨rfl, hrel⟩, hcall⟩ := hret
  · have hfree : k.FreesNone t s (k.sem s).queue := hc hs
    cases hw : (k.toSync.v s t).2 with
    | none => exact h.settled_v ha hw hfree
    | some u =>
      have hcore : ((k.callV t s).enter 0 u).core t = 0 := by
        rw [(frame_enter _ _ _).toSystem]
        exact h.oneCore.core t
      have hv : k.v t s = if ((k.callV t s).enter 0 u).running 0 = some t then
          ((k.callV t s).enter 0 u).complete t else (k.callV t s).enter 0 u := by
        unfold Kernel.v
        rw [hw, h.oneCore.core t]
        dsimp only
        rw [hcore]
      rw [show k.step (.v t s) = k.v t s from rfl, hv] at hcall ⊢
      split at hcall
      · rename_i hrun
        rw [if_pos hrun]
        exact h.settled_wakeup ha hw hrun hfree
      · -- the caller has been switched out
        rw [(frame_enter _ _ _).call] at hcall
        change Function.update k.call t (some (.v s)) t = none at hcall
        rw [Function.update_self] at hcall
        cases hcall
  · obtain ⟨hsched, hprio, hsys⟩ := complete_sched k t
    have hwf := h.wellFormed.complete (t := t) (.inl (h.wellFormed.state_of_running ha.1).1)
    have hr : k.running 0 = some t := by rw [← h.oneCore.core t]; exact ha.1
    show (k.complete t).Settled t
    refine settled_of_list hwf fun x hx _ => ?_
    rw [hsys, h.oneCore.core t, hsched] at hx
    rw [hprio]
    exact hahead t hr hrel x hx

end Kernel

/-- One core with a preemptive criterion and any elector, on which threads are created
    and woken up and use IPCP, MPCP and SRP next to plain semaphores and conditions. -/
def releaseKernel : TransitionSystem Kernel Action where
  Init k := k.Boot ∧ k.OneCore ∧ ∀ s, (k.sem s).protocol.immediate
  Enabled k a := k.CanAct a ∧ k.Acts a
  next := Kernel.step

instance (k : Kernel) (a : Action) : Decidable (releaseKernel.Enabled k a) :=
  inferInstanceAs (Decidable (k.CanAct a ∧ k.Acts a))

/-- In a run that meets `NoneHeldOff`, every `v()` that returns leaves no eligible ready
    thread that is more urgent than its caller. -/
theorem settled_of_noneHeldOff (k : Kernel) (as : List Action) (hk : releaseKernel.Init k)
    (hv : releaseKernel.Valid k as) (hm : releaseKernel.Meets Kernel.NoneHeldOff k as) :
    releaseKernel.Meets (fun k a => ∀ t, k.ReturnsFromV a t → (k.step a).Settled t) k as := by
  refine hm.meets (I := fun k => k.ImmediateCore ∧ k.Ahead) ?_ ?_ ?_ hv
  · rintro k a ⟨h, hahead⟩ ha hc
    refine ⟨h.step ha.1 ?_, h.ahead_step hahead ha.1 ha.2 hc⟩
    cases a <;> first | exact h.ranksFit | trivial | exact ha.2.elim
  · rintro k a ⟨h, hahead⟩ ha hc t hret
    exact h.settled_step hahead ha.1 hc hret
  · refine ⟨⟨hk.1.toWellFormed, hk.1.counted, hk.1.sorted, hk.2.1, hk.2.2⟩, fun r _ hrel => ?_⟩
    rw [Kernel.Releasing, hk.1.call_none] at hrel
    cases hrel

namespace Kernel

/-- A thread of priority 9 runs; the ceiling of the two IPCP semaphores is 4. -/
def releaseExample : Kernel :=
  single { priority := fun t => if t = 8 then Priority.idle else t
           sem := fun s => if s < 2 then { protocol := .ipcp } else { protocol := .plain, value := 0 }
           store := fun _ _ => 4 } 9 8 .always (fun _ => 0) []

/-- The kernel of the example has booted. -/
theorem releaseExample_init : releaseKernel.Init releaseExample := by
  refine ⟨single_boot (by decide) (fun s => ?_) (fun s => ?_) fun s => ?_,
    ⟨rfl, by decide, rfl, fun _ => rfl⟩, fun s => ?_⟩
  · by_cases hs : s < 2 <;> simp [hs]
  · by_cases hs : s < 2 <;> simp [hs]
  · by_cases hs : s < 2 <;> simp [hs]
  · by_cases hs : s < 2
    · simp only [releaseExample, single, if_pos hs]
      rfl
    · simp only [releaseExample, single, if_neg hs]
      rfl

end Kernel

/-- Thread 3 asks for the semaphore that thread 9 owns and gets it from the `v()`, which
    returns to thread 9 once thread 3 waits for the plain semaphore. -/
theorem settled_of_noneHeldOff_handoff :
    releaseKernel.Meets (fun k a => ∀ t, k.ReturnsFromV a t → (k.step a).Settled t)
      Kernel.releaseExample
      [.p 9 0, .create 0 3 .ready, .p 3 0, .v 9 0, .ret 3, .v 3 0, .p 3 2, .ret 9, .handler 0 2] :=
  settled_of_noneHeldOff _ _ Kernel.releaseExample_init (by decide) (by decide)

/-- Thread 6 becomes ready while thread 9 is at the ceiling 4. The `v()` of thread 9
    restores its priority and returns with thread 6 still ready. -/
theorem not_settled_of_valid : ¬∀ k as, releaseKernel.Init k → releaseKernel.Valid k as →
    releaseKernel.Meets (fun k a => ∀ t, k.ReturnsFromV a t → (k.step a).Settled t) k as := by
  intro h
  have hm := h Kernel.releaseExample [.p 9 0, .create 0 6 .ready, .v 9 0]
    Kernel.releaseExample_init (by decide)
  have hs := hm.2.2.1 9 ⟨.inl ⟨0, rfl, by decide⟩, by decide⟩ 6 (by decide) (by decide) (by decide)
  revert hs
  decide

end Epos
