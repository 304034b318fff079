import Epos.Spec.ThreadPlacement

/-!
# Changing the priority of a thread

`priority()` takes every thread that is not running out of the ready list of its core
and inserts it again. `changesPriority_iff_suits` says which threads and criteria this
suits: ready threads, and running ones that stay on their core, where the caller is not
switched away. A switch would find the lock held twice.
-/

namespace Epos

namespace LinkedKernel

open Epos.Lists

variable {k k' : LinkedKernel} {l l' : ListId → List Tid} {c : Nat} {t : Tid} {crit : Criterion}

/-! ## What a change of priority is for -/

/-- `k'` with the lists `l'` is what `t.priority(crit)` should make of `k` with the lists
    `l`. -/
structure Reprioritized (k k' : LinkedKernel) (l l' : ListId → List Tid) (t : Tid)
    (crit : Criterion) : Prop where
  inPlace : k'.InPlace l'
  priority : k'.priority t = crit.priority
  core : k'.core t = crit.queue
  state : k'.state t = k.state t
  sorted : k.state t = some .ready → l' (.ready crit.queue) =
    ((l (.ready crit.queue)).erase t).insertRank k'.priority t
  queues : ∀ s, l' (.queue s) = l (.queue s)
  others : ∀ u, u ≠ t → (∀ c, u ∈ l' (.ready c) ↔ u ∈ l (.ready c)) ∧
    ∀ c, k'.chosen c = some u ↔ k.chosen c = some u

/-- The call succeeds, moves nothing but `t`, and does not switch the context with the
    lock held more than once. -/
def ChangesPriority (k : LinkedKernel) (l : ListId → List Tid) (c : Nat) (t : Tid)
    (crit : Criterion) : Prop :=
  ∃ r l', k.priorityTo c t crit = some r ∧ k.Reprioritized r.kernel l l' t crit ∧
    (k.smp → ∀ n, r.switchedAt = some n → n ≤ 1)

/-- The lists with `t` re-sorted if it is ready. -/
def resorted (k : LinkedKernel) (l : ListId → List Tid) (t : Tid) (crit : Criterion) :
    ListId → List Tid
  | .ready c =>
    if k.state t = some .ready ∧ crit.queue = c then
      ((l (.ready c)).erase t).insertRank (k.setCriterion t crit).priority t
    else (l (.ready c)).erase t
  | .queue s => l (.queue s)

/-- No eligible head of the ready list is as urgent as the thread that runs on the core,
    by the new priorities. -/
def Stays (k : LinkedKernel) (l : ListId → List Tid) (t : Tid) (crit : Criterion)
    (c : Nat) : Prop :=
  ∀ r x, k.chosen c = some r → (k.resorted l t crit (.ready c)).head? = some x →
    k.eligible x → (k.setCriterion t crit).priority r < (k.setCriterion t crit).priority x

/-- `t` is in a state that `priority()` handles, and if it reschedules the core of the
    caller, then the caller stays. -/
structure Suits (k : LinkedKernel) (l : ListId → List Tid) (c : Nat) (t : Tid)
    (crit : Criterion) : Prop where
  state : k.state t = some .ready ∨ k.state t = some .running ∧ crit.queue = k.core t
  stays : k.preemptive → k.smp → crit.queue = c → k.Stays l t crit c

/-! ## Threads that are in a ready list or run on their core -/

/-- The contents of the lists of a kernel. -/
theorem contents_self (chosen : Nat → Option Tid) (l : ListId → List Tid) :
    contents (fun c => ⟨chosen c, l (.ready c)⟩) (fun s => l (.queue s)) = l := by
  funext i
  cases i <;> rfl

/-- The lists hold what they should. -/
theorem InPlace.holds (h : k.InPlace l) :
    k.Holds (fun c => ⟨k.chosen c, l (.ready c)⟩) fun s => l (.queue s) := by
  refine ⟨?_, fun c => rfl⟩
  rw [contents_self]
  exact h.links

/-- A thread that is not ready there is in no other list. -/
theorem InPlace.erase_eq (h : k.InPlace l) {d : Nat} (hd : k.state t ≠ some .ready ∨ k.core t ≠ d) :
    (l (.ready d)).erase t = l (.ready d) := by
  apply List.erase_of_not_mem
  intro hmem
  obtain ⟨hst, hcore⟩ := (h.ready d t).mp hmem
  cases hd with
  | inl hst' => exact hst' hst
  | inr hcore' => exact hcore' hcore

/-- A ready thread is taken out of its list and goes where its new criterion says. -/
theorem InPlace.reorder_ready (h : k.InPlace l) (ht : k.state t = some .ready)
    (hsome : (k.chosen crit.queue).isSome) :
    ∃ m, k.reorder t crit = some ((k.setCriterion t crit).setLists m) ∧
      m.links.Holds m.header (k.resorted l t crit) ∧ m.chosen = k.chosen := by
  have hmem : t ∈ l (.ready (k.core t)) := (h.ready _ t).mpr ⟨ht, rfl⟩
  -- a ready thread is chosen nowhere, so it is in the list of its core
  have hch (d : Nat) : k.chosen d ≠ some t := by
    intro hd
    have hrun := ((h.running d t).mp hd).1
    rw [ht] at hrun
    cases hrun
  let sched (d : Nat) : SchedulingList := ⟨k.chosen d, l (.ready d)⟩
  let queue (s : Sid) : List Tid := l (.queue s)
  let sched₁ (d : Nat) : SchedulingList := ⟨k.chosen d, (l (.ready d)).erase t⟩
  have hremove : ((k.view sched).remove t).sched = sched₁ := by
    funext d
    rw [Kernel.remove, Kernel.setSched_sched]
    by_cases hd : d = k.core t
    · subst hd
      exact (if_pos rfl).trans (SchedulingList.remove_listed (hch (k.core t)))
    · refine (if_neg hd).trans ?_
      show SchedulingList.mk _ _ = ⟨_, _⟩
      rw [h.erase_eq (.inr (Ne.symm hd))]
  obtain ⟨m, heq, hm⟩ := remove_eq h.holds (SchedulingList.mem_toList_of_list hmem)
  rw [hremove] at hm
  -- between the removal and the insertion it is in no list
  have hnone : Unlisted sched₁ queue t := by
    intro i hi
    cases i with
    | ready d => exact List.Nodup.not_mem_erase (h.once (.ready d)) hi
    | queue s =>
      have hw := ((h.waiting s t).mp hi).1
      rw [ht] at hw
      cases hw
  have hholds : ((k.setLists m).setCriterion t crit).Holds sched₁ queue := hm
  obtain ⟨m', heq', hm'⟩ := insert_eq hholds hnone
  obtain ⟨e, he⟩ := Option.isSome_iff_exists.mp hsome
  -- it goes to the list of its new queue, by its new rank
  have hinsert (d : Nat) : ((((k.setLists m).setCriterion t crit).view sched₁).insert t).sched d =
      ⟨k.chosen d, k.resorted l t crit (.ready d)⟩ := by
    rw [Kernel.insert, Kernel.setSched_sched]
    have hcore : (((k.setLists m).setCriterion t crit).view sched₁).core t = crit.queue :=
      Function.update_self ..
    rw [hcore]
    unfold resorted
    by_cases hd : crit.queue = d
    · subst hd
      simp only [if_true, ht, true_and]
      rw [he]
      exact SchedulingList.insert_chosen he
    · simp only [if_neg (Ne.symm hd), hd, and_false, if_false]
      rfl
  refine ⟨m', ?_, ?_, ?_⟩
  · unfold reorder
    rw [if_pos (by simp [ht]), heq]
    exact heq'
  · have hcontents : contents ((((k.setLists m).setCriterion t crit).view sched₁).insert t).sched
        queue = k.resorted l t crit := by
      funext i
      cases i with
      | ready d => exact congrArg SchedulingList.list (hinsert d)
      | queue s => rfl
    exact hcontents ▸ hm'.lists
  · funext d
    rw [hm'.chosen, hinsert]

/-- A thread that is not ready is in no list to be sorted. -/
theorem InPlace.resorted_eq (h : k.InPlace l) (ht : k.state t ≠ some .ready) :
    k.resorted l t crit = l := by
  funext i
  cases i with
  | ready d =>
    unfold resorted
    simp only [ht, false_and, if_false]
    exact h.erase_eq (.inl ht)
  | queue s => rfl

/-- The thread leaves its list and enters that of its new criterion. -/
theorem InPlace.reorder (h : k.InPlace l)
    (ht : k.state t = some .ready ∨ k.state t = some .running)
    (hsome : (k.chosen crit.queue).isSome) :
    ∃ m, k.reorder t crit = some ((k.setCriterion t crit).setLists m) ∧
      m.links.Holds m.header (k.resorted l t crit) ∧ m.chosen = k.chosen := by
  cases ht with
  | inl hready => exact h.reorder_ready hready hsome
  | inr hrun =>
    refine ⟨k.toLists, ?_, ?_, rfl⟩
    · unfold LinkedKernel.reorder
      rw [if_neg (by simp [hrun])]
      rfl
    · rw [h.resorted_eq (by simp [hrun])]
      exact h.links

/-- Who is listed after that. -/
theorem InPlace.mem_resorted (h : k.InPlace l) {u : Tid} {d : Nat} :
    u ∈ k.resorted l t crit (.ready d) ↔
      if u = t then k.state t = some .ready ∧ crit.queue = d else u ∈ l (.ready d) := by
  have hnd := h.once (.ready d)
  unfold resorted
  by_cases hd : k.state t = some .ready ∧ crit.queue = d
  · by_cases hut : u = t
    · simp [hd, hut]
    · simp [hd, hut, List.mem_erase_of_ne hut]
  · by_cases hut : u = t
    · simp [hd, hut, hnd.not_mem_erase]
    · simp [hd, hut, List.mem_erase_of_ne hut]

/-- The new lists are what the new criterion demands. -/
theorem InPlace.reprioritized (h : k.InPlace l)
    (ht : k.state t = some .ready ∨ k.state t = some .running ∧ crit.queue = k.core t)
    {m : Lists} (hm : m.links.Holds m.header (k.resorted l t crit)) (hch : m.chosen = k.chosen) :
    k.Reprioritized ((k.setCriterion t crit).setLists m) l (k.resorted l t crit) t crit := by
  have hcore (u : Tid) : ((k.setCriterion t crit).setLists m).core u =
      if u = t then crit.queue else k.core u := Function.update_apply ..
  constructor
  case inPlace =>
    constructor
    case links => exact hm
    case once => exact fun i => (hm.represents i).nodup
    case running =>
      intro d u
      show m.chosen d = some u ↔ k.state u = some .running ∧ _
      rw [hch, hcore, h.running]
      by_cases hut : u = t
      · -- A running thread keeps its core, and a ready one is not chosen anywhere.
        subst hut
        rw [if_pos rfl]
        cases ht with
        | inl hready => simp [hready]
        | inr hrun => rw [hrun.2]
      · rw [if_neg hut]
    case ready =>
      intro d u
      show _ ↔ k.state u = some .ready ∧ _
      rw [h.mem_resorted, hcore]
      by_cases hut : u = t
      · rw [if_pos hut, if_pos hut, hut]
      · rw [if_neg hut, if_neg hut]
        exact h.ready d u
    case waiting => exact h.waiting
    case waitsOn => exact h.waitsOn
  case priority => exact Function.update_self ..
  case core => exact Function.update_self ..
  case state => rfl
  case sorted => exact fun hready => if_pos ⟨hready, rfl⟩
  case queues => exact fun s => rfl
  case others =>
    intro u hut
    constructor
    · intro d
      rw [h.mem_resorted, if_neg hut]
    · intro d
      show m.chosen d = some u ↔ _
      rw [hch]

/-! ## Rescheduling the core of the caller -/

/-- A chosen thread is in no list. -/
theorem InPlace.chosen_not_mem (h : k.InPlace l) {e : Tid} (he : k.chosen c = some e)
    (i : ListId) : e ∉ l i :=
  h.not_mem ((h.running c e).mp he).1 (by simp) i

/-- No list has a thread twice. -/
theorem InPlace.sched_nodup (h : k.InPlace l) {e : Tid} (he : k.chosen c = some e) :
    (SchedulingList.mk (k.chosen c) (l (.ready c))).toList.Nodup := by
  rw [he]
  exact List.nodup_cons.mpr ⟨h.chosen_not_mem he _, h.once _⟩

/-- Where the thread that runs stays, choosing moves nothing. -/
theorem InPlace.choose (h : k.InPlace l) {e : Tid} (he : k.chosen c = some e)
    (hstay : ∀ x, (l (.ready c)).head? = some x → k.eligible x → k.priority e < k.priority x) :
    ∃ m, k.choose c = some (k.setLists m) ∧ m.links.Holds m.header l ∧ m.chosen = k.chosen := by
  let sched (d : Nat) : SchedulingList := ⟨k.chosen d, l (.ready d)⟩
  have hne := h.chosen_not_mem he (.ready c)
  have hself : (sched c).choose k.priority k.eligible = sched c :=
    SchedulingList.choose_eq_of_chosen he hne
      ((SchedulingList.choose_chosen_iff he hne).mpr hstay)
  have hunlisted : Unlisted sched (fun s => l (.queue s)) e := by
    intro i hi
    cases i with
    | ready d => exact h.chosen_not_mem he (.ready d) hi
    | queue s => exact h.chosen_not_mem he (.queue s) hi
  have hholds : k.Holds sched fun s => l (.queue s) := h.holds
  obtain ⟨m, heq, hm⟩ := permute_eq hholds he hunlisted
    ((h.holds.readyList c).choose (Option.isSome_of_mem he) (h.sched_nodup he))
    SchedulingList.choose_perm
  refine ⟨m, heq, ?_⟩
  change m.Holds (Function.update sched c ((sched c).choose k.priority k.eligible)) _ at hm
  rw [hself, Function.update_eq_self] at hm
  refine ⟨?_, funext hm.chosen⟩
  rw [← contents_self k.chosen l]
  exact hm.lists

/-- Where choosing keeps the thread that runs, no eligible head is as urgent. -/
theorem InPlace.stays_of_choose (h : k.InPlace l) {e : Tid} (he : k.chosen c = some e)
    {s : LinkedSchedulingList Tid} (hs : (k.sched c).choose k.priority k.eligible = some s)
    (hse : s.chosen = some e) {x : Tid} (hx : (l (.ready c)).head? = some x)
    (hel : k.eligible x) : k.priority e < k.priority x := by
  obtain ⟨s', heq, hm⟩ : ∃ s', (k.sched c).choose k.priority k.eligible = some s' ∧
      (k.sched c).Moves s' _ _ :=
    (h.holds.readyList c).choose (Option.isSome_of_mem he) (h.sched_nodup he)
  obtain rfl := Option.some.inj (hs.symm.trans heq)
  have hch := hm.represents.chosen.symm.trans hse
  exact (SchedulingList.choose_chosen_iff he (h.chosen_not_mem he _)).mp hch x hx hel

/-- The number of CPUs stays. -/
theorem reorder_smp (heq : k.reorder t crit = some k') : k'.smp = k.smp := by
  unfold reorder at heq
  split at heq
  · obtain ⟨k₁, hremove, hinsert⟩ := Option.bind_eq_some_iff.mp heq
    obtain ⟨s, -, rfl⟩ := Option.map_eq_some_iff.mp hremove
    obtain ⟨s', -, rfl⟩ := Option.map_eq_some_iff.mp hinsert
    rfl
  · cases heq
    rfl

/-- When the running thread is chosen again nothing else happens. -/
theorem reschedule_self {e : Tid} {m : Lists} (he : k.chosen c = some e)
    (heq : k.choose c = some (k.setLists m)) (he' : m.chosen c = some e) :
    k.reschedule c = some (k.setLists m) := by
  unfold reschedule
  simp only [he, heq, Option.bind_eq_bind, Option.bind_some]
  show Option.bind (m.chosen c) _ = _
  rw [he', Option.bind_some]
  exact congrArg some (if_pos rfl)

/-- A call that does not switch the context leaves what `reorder` has made, or what
    choosing the same thread again has made of it. -/
theorem priorityTo_cases {r : Released} (heq : k.priorityTo c t crit = some r)
    (hlevel : k.smp → ∀ n, r.switchedAt = some n → n ≤ 1) :
    ∃ k₁, k.reorder t crit = some k₁ ∧
      (¬(k₁.preemptive ∧ k₁.smp ∧ k₁.core t = c) ∧ r.kernel = k₁ ∨ k₁.core t = c ∧ ∃ prev s,
        k₁.chosen c = some prev ∧ (k₁.sched c).choose k₁.priority k₁.eligible = some s ∧
        s.chosen = some prev ∧ r.kernel = k₁.setLists (k₁.setSched c s)) := by
  unfold priorityTo at heq
  obtain ⟨self, hself, heq⟩ := Option.bind_eq_some_iff.mp heq
  obtain ⟨k₁, hk₁, heq⟩ := Option.bind_eq_some_iff.mp heq
  refine ⟨k₁, hk₁, ?_⟩
  split at heq
  · rename_i hp
    obtain ⟨r', hr', heq⟩ := Option.bind_eq_some_iff.mp heq
    have hr : r.kernel = r'.kernel ∧ r.switchedAt = r'.switchedAt := by
      rw [← Option.some.inj heq]
      split <;> exact ⟨rfl, rfl⟩
    rw [hr.2] at hlevel
    rw [hr.1]
    unfold rescheduleOn at hr'
    split at hr'
    · rename_i hc
      obtain ⟨prev, hprev, hr'⟩ := Option.bind_eq_some_iff.mp hr'
      obtain ⟨k₂, hk₂, hr'⟩ := Option.bind_eq_some_iff.mp hr'
      obtain ⟨next, hnext, hr'⟩ := Option.bind_eq_some_iff.mp hr'
      cases hr'
      unfold reschedule at hk₂
      rw [hprev, Option.bind_eq_bind, Option.bind_some] at hk₂
      obtain ⟨k₃, hk₃, hk₂⟩ := Option.bind_eq_some_iff.mp hk₂
      obtain ⟨next', hnext', hk₂⟩ := Option.bind_eq_some_iff.mp hk₂
      cases hk₂
      rw [dispatch_toLists, hnext', Option.some.injEq] at hnext
      subst hnext
      have hlock : (k₁.lock (k₁.lock {} self) self).level = 2 := by
        simp [lock, hp.2, RecursiveLock.acquire]
      rw [hlock, ← reorder_smp hk₁] at hlevel
      -- The lock is held twice, so that there is no switch.
      have hstay : prev = next' := by
        by_contra hne
        have htwo := hlevel hp.2 2 (if_neg hne)
        omega
      subst hstay
      obtain ⟨s, hs, rfl⟩ := Option.map_eq_some_iff.mp hk₃
      have hsched : s.chosen = some prev := by
        change Function.update k₁.chosen c s.chosen c = some prev at hnext'
        rwa [Function.update_self] at hnext'
      refine .inr ⟨hc.resolve_left (not_not.mpr hp.2), prev, s, hprev, hs, hsched, ?_⟩
      exact if_pos rfl
    · rename_i hc
      cases hr'
      exact .inl ⟨fun hres => hc (.inr hres.2.2), rfl⟩
  · rename_i hp
    cases heq
    exact .inl ⟨fun hres => hp ⟨hres.1, hres.2.1⟩, rfl⟩

/-! ## Threads in other states -/

/-- Whatever the link of `t` is used for, `t` ends up in a ready list, if it is one. -/
theorem InPlace.mem_of_reorder (h : k.InPlace l) (ht : k.state t ≠ some .running)
    (hsome : (k.chosen crit.queue).isSome) (heq : k.reorder t crit = some k') :
    ∃ m, k' = (k.setCriterion t crit).setLists m ∧ m.chosen = k.chosen ∧
      (∀ xs, (m.list (.ready crit.queue)).Represents xs → t ∈ xs) ∧
      ∀ y, (m.header (.ready crit.queue)).head = some y → y = t ∨ y ∈ l (.ready crit.queue) := by
  -- reorder() takes t out of the list of its old core, then puts it into the list of the new one
  have hch (d : Nat) : k.chosen d ≠ some t := fun hd => ht ((h.running d t).mp hd).1
  unfold LinkedKernel.reorder at heq
  rw [if_pos ht] at heq
  obtain ⟨k₁, hremove, hinsert⟩ := Option.bind_eq_some_iff.mp heq
  obtain ⟨q, hq, rfl⟩ := remove_cases (hch _) hremove
  have hcore : ((k.setLists (k.setList (.ready (k.core t)) q)).setCriterion t crit).core t =
      crit.queue := Function.update_self ..
  obtain ⟨q', hq', rfl⟩ := insert_cases (hcore ▸ hsome) hinsert
  rw [hcore] at hq' ⊢
  refine ⟨_, rfl, rfl, fun xs hxs => ?_, fun y hy => ?_⟩
  · rw [setList_list] at hxs
    exact LinkedList.mem_of_orderedInsert hq' hxs
  · rw [setList_header, if_pos rfl] at hy
    -- the head is t itself, or a thread that was in the list
    cases LinkedList.orderedInsert_head hq' with
    | inl hhead => exact .inl (Option.some.inj (hy.symm.trans hhead))
    | inr hhead =>
      right
      have hy' : ((k.setList (.ready (k.core t)) q).header (.ready crit.queue)).head = some y :=
        hhead.symm.trans hy
      rw [setList_header] at hy'
      split at hy'
      · rename_i hd
        rw [hd]
        exact LinkedList.head_of_remove (q := k.list (.ready (k.core t))) (h.links.represents _) hq hy'
      · exact LinkedList.mem_of_head (q := k.list (.ready crit.queue)) (h.links.represents _) hy'

/-- A thread that neither runs nor is ready would be in a ready list. -/
theorem ChangesPriority.state (hcp : k.ChangesPriority l c t crit) (h : k.InPlace l)
    (hsome : (k.chosen crit.queue).isSome) :
    k.state t = some .ready ∨ k.state t = some .running := by
  obtain ⟨r, l', heq, hrep, hlevel⟩ := hcp
  by_contra hst
  obtain ⟨hready, hrun⟩ := not_or.mp hst
  obtain ⟨k₁, hk₁, hcase⟩ := priorityTo_cases heq hlevel
  obtain ⟨m, rfl, hch, hmem, hhead⟩ := h.mem_of_reorder hrun hsome hk₁
  have hlist : t ∈ l' (.ready crit.queue) := by
    have hl' := hrep.inPlace.links.represents (.ready crit.queue)
    apply hmem
    cases hcase with
    | inl hcase =>
      rw [hcase.2] at hl'
      exact hl'
    | inr hcase =>
      obtain ⟨hc, prev, s, hprev, hs, hsched, hkernel⟩ := hcase
      obtain rfl : crit.queue = c := (Function.update_self ..).symm.trans hc
      rw [hkernel] at hl'
      have hl : s.toLinkedList.Represents (l' (.ready crit.queue)) := by
        rw [← setSched_list m crit.queue s]
        exact hl'
      refine LinkedSchedulingList.represents_of_choose hs hprev hsched ?_ hl
      -- The thread that runs is neither `t` nor in the list.
      intro hx
      have hrunning := ((h.running crit.queue prev).mp (hch ▸ hprev)).1
      cases hhead prev hx with
      | inl heq => exact hrun (heq ▸ hrunning)
      | inr hx =>
        have hx' := ((h.ready crit.queue prev).mp hx).1
        rw [hrunning] at hx'
        cases hx'
  have hst' := ((hrep.inPlace.ready crit.queue t).mp hlist).1
  exact hready (hrep.state.symm.trans hst')

/-- A running thread would be the chosen one of another list than its own. -/
theorem ChangesPriority.core (hcp : k.ChangesPriority l c t crit) (h : k.InPlace l)
    (hrun : k.state t = some .running) : crit.queue = k.core t := by
  obtain ⟨r, l', heq, hrep, hlevel⟩ := hcp
  obtain ⟨k₁, hk₁, hcase⟩ := priorityTo_cases heq hlevel
  unfold LinkedKernel.reorder at hk₁
  rw [if_neg (by simp [hrun])] at hk₁
  cases hk₁
  have hch : r.kernel.chosen = k.chosen := by
    cases hcase with
    | inl hcase => rw [hcase.2]; rfl
    | inr hcase =>
      obtain ⟨-, prev, s, hprev, -, hsched, hkernel⟩ := hcase
      rw [hkernel]
      funext d
      show Function.update k.chosen c s.chosen d = k.chosen d
      rw [hsched, ← hprev]
      exact congrFun (Function.update_eq_self ..) d
  have ht : r.kernel.chosen (k.core t) = some t := hch ▸ (h.running _ t).mpr ⟨hrun, rfl⟩
  exact hrep.core.symm.trans ((hrep.inPlace.running _ t).mp ht).2

/-! ## When the change is right -/

/-- A priority that is changed properly suits. -/
theorem ChangesPriority.suits (hcp : k.ChangesPriority l c t crit) (h : k.InPlace l)
    (hsome : (k.chosen crit.queue).isSome) : k.Suits l c t crit := by
  have hst : k.state t = some .ready ∨ k.state t = some .running ∧ crit.queue = k.core t := by
    cases hcp.state h hsome with
    | inl hready => exact .inl hready
    | inr hrun => exact .inr ⟨hrun, hcp.core h hrun⟩
  refine ⟨hst, fun hpre hsmp hc e x he hx hel => ?_⟩
  obtain ⟨m, heq, hm, hch⟩ := h.reorder (hst.imp_right And.left) hsome
  have hplace := (h.reprioritized hst hm hch).inPlace
  obtain ⟨r, l', hr, -, hlevel⟩ := hcp
  obtain ⟨k₁, hk₁, hcase⟩ := priorityTo_cases hr hlevel
  obtain rfl := Option.some.inj (heq.symm.trans hk₁)
  have hcore : ((k.setCriterion t crit).setLists m).core t = crit.queue :=
    Function.update_self ..
  cases hcase with
  | inl hcase => exact absurd ⟨hpre, hsmp, hcore.trans hc⟩ hcase.1
  | inr hcase =>
    obtain ⟨-, prev, s, hprev, hs, hsched, -⟩ := hcase
    have he' : ((k.setCriterion t crit).setLists m).chosen c = some e := by
      rw [← he]
      exact congrFun hch c
    obtain rfl := Option.some.inj (hprev.symm.trans he')
    exact hplace.stays_of_choose hprev hs hsched hx hel

/-- A priority that suits is changed properly. -/
theorem Suits.changesPriority (hs : k.Suits l c t crit) (h : k.InPlace l)
    (hself : (k.chosen c).isSome) (hsome : (k.chosen crit.queue).isSome) :
    k.ChangesPriority l c t crit := by
  obtain ⟨e, he⟩ := Option.isSome_iff_exists.mp hself
  -- reorder() puts t into the list of its new core, and no other thread moves
  obtain ⟨m, heq, hm, hch⟩ := h.reorder (hs.state.imp_right And.left) hsome
  have hcore : ((k.setCriterion t crit).setLists m).core t = crit.queue :=
    Function.update_self ..
  have hrep := h.reprioritized hs.state hm hch
  unfold ChangesPriority priorityTo
  simp only [he, heq, Option.bind_eq_bind, Option.bind_some]
  split
  · rename_i hp
    unfold rescheduleOn
    rw [hcore]
    -- the new core is this one, and rescheduling keeps the thread that runs
    by_cases hc : crit.queue = c
    · have he' : ((k.setCriterion t crit).setLists m).chosen c = some e :=
        (congrFun hch c).trans he
      obtain ⟨m', heq', hm', hch'⟩ := hrep.inPlace.choose he' fun x hx hel =>
        hs.stays hp.1 hp.2 hc e x he hx hel
      have he'' : (((k.setCriterion t crit).setLists m).setLists m').chosen c = some e :=
        (congrFun hch' c).trans he'
      rw [if_pos (.inr hc)]
      simp only [he', reschedule_self he' heq' he'', he'', Option.bind_eq_bind, Option.bind_some,
        if_true, Option.isSome_none, Bool.false_eq_true, if_false]
      exact ⟨_, _, rfl, h.reprioritized hs.state hm' (hch'.trans hch), fun _ n hn => nomatch hn⟩
    · rw [if_neg fun hor => hor.elim (fun hsmp => hsmp hp.2) hc]
      exact ⟨_, _, rfl, hrep, fun _ n hn => nomatch hn⟩
  · exact ⟨_, _, rfl, hrep, fun _ n hn => nomatch hn⟩

end LinkedKernel

open LinkedKernel

/-- With every thread in its place, `priority()` does what it is for exactly if the state
    of the thread and the criterion suit it. -/
theorem changesPriority_iff_suits {k : LinkedKernel} {l : ListId → List Tid} {c : Nat} {t : Tid}
    {crit : Criterion} (h : k.InPlace l) (hruns : ∀ d < k.cores, (k.chosen d).isSome)
    (hc : c < k.cores) (hcrit : crit.queue < k.cores) :
    k.ChangesPriority l c t crit ↔ k.Suits l c t crit :=
  ⟨fun hcp => hcp.suits h (hruns _ hcrit),
    fun hs => hs.changesPriority h (hruns c hc) (hruns _ hcrit)⟩

/-- The lists of the example are in place. -/
theorem linkedExample_inPlace :
    linkedExample.InPlace (Lists.contents linkedExample.bootSched fun _ => []) :=
  linkedExample_boot.consistent.inPlace linkedExample_boot.placed

/-- The ready thread 1 gets a criterion behind the one of the thread 0, which calls. -/
theorem changesPriority_iff_suits_ready :
    linkedExample.ChangesPriority (Lists.contents linkedExample.bootSched fun _ => []) 0 1
      ⟨7, 0⟩ := by
  have hruns (d : Nat) (hd : d < linkedExample.cores) : (linkedExample.chosen d).isSome := by
    obtain ⟨u, hu, -⟩ := linkedExample_boot.runs d hd
    exact Option.isSome_of_mem hu
  refine (changesPriority_iff_suits linkedExample_inPlace hruns Nat.zero_lt_two
    Nat.zero_lt_two).mpr ⟨.inl rfl, fun _ _ _ r x hr hx _ => ?_⟩
  cases hr
  cases hx
  decide

/-- A thread that is created suspended is put in a ready list. -/
theorem not_changesPriority_of_suspended : ∃ k l,
    linkedExample.create 0 3 .suspended ⟨5, 0⟩ = some k ∧ k.InPlace l ∧
      k.state 3 = some .suspended ∧ ¬k.ChangesPriority l 0 3 ⟨6, 0⟩ := by
  have hkeeps : Keeps _ (linkedExample.create 0 3 .suspended ⟨5, 0⟩) :=
    linkedExample_boot.consistent.create Nat.zero_lt_two rfl Nat.zero_lt_two (.inr rfl)
  obtain ⟨k, sched, queue, heq, hk, hp⟩ := hkeeps
  have hplace := hk.inPlace (hp linkedExample_boot.placed)
  have hcore : some (k.state 3, k.chosen 0) = some (some .suspended, some 0) := by
    have hrun : (linkedExample.create 0 3 .suspended ⟨5, 0⟩).map
        (fun k => (k.state 3, k.chosen 0)) = some (some .suspended, some 0) := rfl
    rwa [heq] at hrun
  obtain ⟨hst, hch⟩ := Prod.mk.inj (Option.some.inj hcore)
  refine ⟨k, _, heq, hplace, hst, fun hcp => ?_⟩
  have hstate := hcp.state hplace (Option.isSome_of_mem hch)
  simp [hst] at hstate

end Epos
