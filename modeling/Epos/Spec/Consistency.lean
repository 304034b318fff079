import Epos.Spec.LinkedKernelCorrect

/-!
# What every operation on the lists in memory keeps

`Consistent` says that the headers represent lists without a common element, that
the scheduling lists hold the threads that compete, each on its core, and the queues
those that wait, each in the one queue that it remembers. Every operation that is
called as `LinkedKernel.CanAct` says succeeds and keeps it, `suspend()` and `pass()`
on threads of suitable states. It also keeps the stronger `Kernel.Placed`.
-/

namespace Epos

namespace LinkedKernel

open Epos.Lists

variable {k k' : LinkedKernel} {sched sched' : Nat → SchedulingList} {queue : Sid → List Tid}
  {c cpu : Nat} {s : Sid} {t u prev next : Tid} {st : State} {m : Lists} {P Q : Prop}

/-! ## The invariant -/

/-- `t` remembers the queue `s`, in the field for queues of its class, and no other. -/
def WaitsOn (k : LinkedKernel) (t : Tid) (s : Sid) : Prop :=
  if k.fifo s then k.waitingFifo t = some s ∧ k.waiting t = none
  else k.waiting t = some s ∧ k.waitingFifo t = none

/-- A thread waits on one queue. -/
theorem WaitsOn.unique {r : Sid} (h : k.WaitsOn t s) (h' : k.WaitsOn t r) : s = r := by
  unfold WaitsOn at h h'
  split at h <;> split at h'
  · exact Option.some.inj (h.1.symm.trans h'.1)
  · exact absurd (h.1.symm.trans h'.2) (Option.some_ne_none s)
  · exact absurd (h.1.symm.trans h'.2) (Option.some_ne_none s)
  · exact Option.some.inj (h.1.symm.trans h'.1)

/-- The queues hold the waiting threads, and a thread that joins another is suspended. -/
structure Waits (k : LinkedKernel) (queue : Sid → List Tid) : Prop where
  mem_iff : ∀ s t, t ∈ queue s ↔ k.state t = some .waiting ∧ k.WaitsOn t s
  waitsOn : ∀ t, k.state t = some .waiting → ∃ s, k.WaitsOn t s
  forgotten : ∀ t, k.state t ≠ some .waiting → k.waiting t = none ∧ k.waitingFifo t = none
  joined : ∀ u t, k.joining u = some t → k.state t = some .suspended
  joined_inj : ∀ u v t, k.joining u = some t → k.joining v = some t → u = v

structure Scheduled (k : LinkedKernel) (sched : Nat → SchedulingList)
    (queue : Sid → List Tid) : Prop where
  holds : k.Holds sched queue
  queued : (k.view sched).Queued

structure Consistent (k : LinkedKernel) (sched : Nat → SchedulingList)
    (queue : Sid → List Tid) : Prop extends Scheduled k sched queue where
  waits : k.Waits queue

/-- The operation succeeds and leaves a consistent kernel, and if `P` holds every thread
    is then in its place. -/
def Keeps (P : Prop) (r : Option LinkedKernel) : Prop :=
  ∃ k' sched queue, r = some k' ∧ k'.Consistent sched queue ∧ (P → (k'.view sched).Placed)

/-- A weaker condition. -/
theorem Keeps.imp {r : Option LinkedKernel} (h : Keeps P r) (hPQ : Q → P) : Keeps Q r := by
  obtain ⟨k', sched, queue, heq, hk', hplaced⟩ := h
  exact ⟨k', sched, queue, heq, hk', fun hQ => hplaced (hPQ hQ)⟩

/-! ## Where threads are -/

/-- A thread that competes has no other state. -/
theorem schedulable_ne (ht : (k.view sched).Schedulable t) (hst : st ≠ .running ∧ st ≠ .ready) :
    k.state t ≠ some st := by
  intro hw
  cases ht with
  | inl hrun => exact hst.1 (Option.some.inj (hw.symm.trans hrun))
  | inr hready => exact hst.2 (Option.some.inj (hw.symm.trans hready))

/-- The core `c` runs a thread of its own. -/
theorem Scheduled.exists_chosen (h : k.Scheduled sched queue) (hc : c < k.cores) :
    ∃ prev, (sched c).chosen = some prev ∧ k.chosen c = some prev ∧ k.core prev = c ∧
      (k.view sched).Schedulable prev := by
  obtain ⟨prev, hr⟩ := Option.isSome_iff_exists.mp (h.queued.isSome c hc)
  obtain ⟨hs, hcore⟩ := h.queued.next_mem hr
  exact ⟨prev, hr, (h.holds.chosen c).trans hr, hcore, hs⟩

/-- The caller is the thread that its core runs, and not the idle one. -/
theorem Scheduled.exists_caller (h : k.Scheduled sched queue) (hc : k.Runs c) :
    ∃ prev, (sched c).chosen = some prev ∧ k.chosen c = some prev ∧ k.core prev = c ∧
      (k.view sched).Schedulable prev ∧ prev ≠ k.idle (k.core prev) := by
  obtain ⟨prev, hch, hrun, hcore, hs⟩ := h.exists_chosen hc.1
  refine ⟨prev, hch, hrun, hcore, hs, fun heq => hc.2 ?_⟩
  exact hrun.trans (congrArg some (heq.trans (congrArg k.idle hcore)))

/-- A thread that neither competes nor waits is in no list. -/
theorem Consistent.unlisted (h : k.Consistent sched queue) (ht : ¬(k.view sched).Schedulable t)
    (hw : k.state t ≠ some .waiting) : Unlisted sched queue t := by
  intro i hi
  cases i with
  | ready c => exact ht ((h.queued.mem_iff c t).mp (SchedulingList.mem_toList_of_list hi)).1
  | queue s => exact hw ((h.waits.mem_iff s t).mp hi).1

/-- The chosen thread is in no list. -/
theorem Consistent.unlisted_of_chosen (h : k.Consistent sched queue)
    (hch : (sched c).chosen = some t) : Unlisted sched queue t := by
  have ht := (h.queued.mem_iff c t).mp (SchedulingList.mem_toList_of_chosen hch)
  intro i hi
  cases i with
  | ready d =>
    have hd := (h.queued.mem_iff d t).mp (SchedulingList.mem_toList_of_list hi)
    obtain rfl : c = d := ht.2.symm.trans hd.2
    exact SchedulingList.not_mem_list (h.queued.nodup c) hch hi
  | queue s => exact schedulable_ne ht.1 (by simp) ((h.waits.mem_iff s t).mp hi).1

/-! ## Waiting threads and the moves of others -/

/-- The waiting threads stay, and threads only stop joining. -/
theorem Waits.congr (h : k.Waits queue) (hfifo : k'.fifo = k.fifo)
    (hwait : k'.waiting = k.waiting) (hwait' : k'.waitingFifo = k.waitingFifo)
    (hst : ∀ u, k'.state u = some .waiting ↔ k.state u = some .waiting)
    (hjoin : ∀ u x, k'.joining u = some x →
      k.joining u = some x ∧ k'.state x = some .suspended) : k'.Waits queue := by
  have hon (t : Tid) (s : Sid) : k'.WaitsOn t s ↔ k.WaitsOn t s := by
    unfold WaitsOn
    rw [hfifo, hwait, hwait']
  constructor
  · intro s t
    rw [hst, hon]
    exact h.mem_iff s t
  · intro t ht
    obtain ⟨s, hs⟩ := h.waitsOn t ((hst t).mp ht)
    exact ⟨s, (hon t s).mpr hs⟩
  · intro t ht
    rw [hwait, hwait']
    exact h.forgotten t (mt (hst t).mpr ht)
  · exact fun u t ht => (hjoin u t ht).2
  · exact fun u v t hu hv => h.joined_inj u v t (hjoin u t hu).1 (hjoin v t hv).1

/-- Only lists and states differ. -/
def Moved (k k' : LinkedKernel) : Prop :=
  ∃ m st, k' = { k with toLists := m, state := st }

/-- `dispatch()` only moves threads. -/
theorem moved_dispatch (k : LinkedKernel) (m : Lists) (st : Tid → Option State)
    (prev next : Tid) :
    Moved k (({ k with toLists := m, state := st } : LinkedKernel).dispatch prev next) := by
  unfold dispatch
  split
  · exact ⟨m, st, rfl⟩
  · dsimp only
    split <;> exact ⟨m, _, rfl⟩

/-- Threads other than `t` only move between running and ready, and `t` takes the state
    `st`. -/
def Leaves (v v' : Kernel) (t : Tid) (st : State) : Prop :=
  v'.state t = some st ∧ ∀ u, u ≠ t →
    (v'.Schedulable u ↔ v.Schedulable u) ∧ (¬v.Schedulable u → v'.state u = v.state u)

/-- A state other than running and ready is kept by what settles. -/
theorem state_iff {v v' : Kernel} (hiff : v'.Schedulable t ↔ v.Schedulable t)
    (hold : ¬v.Schedulable t → v'.state t = v.state t) (hst : st ≠ .running ∧ st ≠ .ready) :
    v'.state t = some st ↔ v.state t = some st := by
  have hns {w : Kernel} (hw : w.state t = some st) : ¬w.Schedulable t := by
    unfold Kernel.Schedulable
    simp [hw, hst]
  constructor
  · intro hw
    exact (hold (mt hiff.mpr (hns hw))).symm.trans hw
  · intro hw
    exact (hold (hns hw)).trans hw

/-- Scheduling leaves the waiting threads alone. -/
theorem Waits.settle (h : k.Waits queue) (hm : Moved k k')
    (hs : Kernel.Settles (k.view sched) (k'.view sched')) : k'.Waits queue := by
  have hwait (u : Tid) : k'.state u = some .waiting ↔ k.state u = some .waiting :=
    state_iff (hs u).1 (hs u).2 (by simp)
  have hsusp (u : Tid) : k'.state u = some .suspended ↔ k.state u = some .suspended :=
    state_iff (hs u).1 (hs u).2 (by simp)
  obtain ⟨m, st, rfl⟩ := hm
  exact h.congr rfl rfl rfl hwait fun u x hx => ⟨hx, (hsusp x).mpr (h.joined u x hx)⟩

/-- So does a thread that stops competing without going to sleep. -/
theorem Waits.leave (h : k.Waits queue) (hm : Moved k k') (ht : (k.view sched).Schedulable t)
    (hl : Leaves (k.view sched) (k'.view sched') t st) (hst : st ≠ .waiting) :
    k'.Waits queue := by
  obtain ⟨hself, hothers⟩ := hl
  have hwait (u : Tid) : k'.state u = some .waiting ↔ k.state u = some .waiting := by
    by_cases hu : u = t
    · subst hu
      exact ⟨fun hw => absurd (Option.some.inj (hself.symm.trans hw)) hst,
        fun hw => absurd hw (schedulable_ne ht (by simp))⟩
    · exact state_iff (hothers u hu).1 (hothers u hu).2 (by simp)
  have hsusp (u : Tid) (hu : k.state u = some .suspended) : k'.state u = some .suspended := by
    have hne : u ≠ t := fun heq => schedulable_ne ht (by simp) (heq ▸ hu)
    exact (state_iff (hothers u hne).1 (hothers u hne).2 (by simp)).mpr hu
  obtain ⟨m, st', rfl⟩ := hm
  exact h.congr rfl rfl rfl hwait fun u x hx => ⟨hx, hsusp x (h.joined u x hx)⟩

/-! ## Scheduling -/

namespace Consistent

/-- A list operation that permutes the threads of a core, and the switch that follows. -/
theorem switch (h : k.Consistent sched queue) {e : Tid} (hch : (sched c).chosen = some e)
    {F : LinkedSchedulingList Tid → Option (LinkedSchedulingList Tid)}
    {f : SchedulingList → SchedulingList}
    (hf : ∃ q, F (k.sched c) = some q ∧ (k.sched c).Moves q (f (sched c)) (sched c).toList)
    (hperm : (f (sched c)).toList.Perm (sched c).toList)
    (hnext : (f (sched c)).chosen = some next) (prev : Tid) :
    ∃ m sched', k.onSched c F = some (k.setLists m) ∧ m.chosen c = some next ∧
      ((k.setLists m).dispatch prev next).Consistent sched' queue ∧
      ((k.setLists m).dispatch prev next).view sched' =
        ((k.view sched).setSched c f).dispatch c prev := by
  -- dispatch() gets the same threads in another order
  obtain ⟨m, heq, hm⟩ := permute_eq h.holds hch (h.unlisted_of_chosen hch) hf hperm
  have hch' : (((k.view sched).setSched c f).sched c).chosen = some next := by
    rw [Kernel.setSched_sched, if_pos rfl]
    exact hnext
  have hview : ((k.setLists m).dispatch prev next).view ((k.view sched).setSched c f).sched =
      ((k.view sched).setSched c f).dispatch c prev := dispatch_view hch'
  have hq : ((k.view sched).setSched c f).Queued :=
    h.queued.setSched hperm fun _ => Option.isSome_of_mem hnext
  refine ⟨m, ((k.view sched).setSched c f).sched, heq, hm.chosen_update.trans hnext, ?_, hview⟩
  constructor
  · constructor
    · rw [dispatch_toLists]
      exact hm
    · rw [hview]
      exact hq.dispatch
  · apply h.waits.settle (moved_dispatch k m k.state prev next)
    exact hview ▸ hq.settles_dispatch

/-- `reschedule()` keeps the lists consistent. -/
theorem reschedule (h : k.Consistent sched queue) (hc : c < k.cores) :
    Keeps (k.view sched).Placed (k.reschedule c) := by
  obtain ⟨prev, hch, hrun, -, -⟩ := h.exists_chosen hc
  have hsome : (sched c).chosen.isSome := Option.isSome_of_mem hch
  have hsome' : ((sched c).choose k.priority k.eligible).chosen.isSome :=
    SchedulingList.choose_isSome hsome
  obtain ⟨next, hnext⟩ := Option.isSome_iff_exists.mp hsome'
  obtain ⟨m, sched', heq, hm, hcons, hview⟩ := h.switch hch
    (f := fun l => l.choose k.priority k.eligible)
    ((h.holds.readyList c).choose hsome (h.queued.nodup c)) SchedulingList.choose_perm hnext prev
  refine ⟨_, sched', queue, ?_, hcons, fun hp => ?_⟩
  · unfold LinkedKernel.reschedule LinkedKernel.choose
    simp only [hrun, heq, hm, setLists, Option.bind_eq_bind, Option.bind_some]
  · rw [hview]
    exact ((hp.switching hch).setSched SchedulingList.choose_perm
      (SchedulingList.choose_isSome hsome)).placed_dispatch

/-- A preemption keeps the lists consistent. -/
theorem preempt (h : k.Consistent sched queue) (hc : c < k.cores) (cpu : Nat) :
    Keeps (k.view sched).Placed (k.preempt c cpu) := by
  unfold LinkedKernel.preempt
  split
  · exact h.reschedule hc
  · exact ⟨k, sched, queue, rfl, h, id⟩

/-- `yield()` keeps the lists consistent. -/
theorem yield (h : k.Consistent sched queue) (hc : c < k.cores) :
    Keeps (k.view sched).Placed (k.yield c) := by
  obtain ⟨prev, hch, hrun, -, -⟩ := h.exists_chosen hc
  have hsome : (sched c).chosen.isSome := Option.isSome_of_mem hch
  have hsome' : ((sched c).chooseAnother k.priority k.eligible).chosen.isSome :=
    SchedulingList.chooseAnother_isSome hsome
  obtain ⟨next, hnext⟩ := Option.isSome_iff_exists.mp hsome'
  obtain ⟨m, sched', heq, hm, hcons, hview⟩ := h.switch hch
    (f := fun l => l.chooseAnother k.priority k.eligible)
    ((h.holds.readyList c).chooseAnother hsome (h.queued.nodup c))
    SchedulingList.chooseAnother_perm hnext prev
  refine ⟨_, sched', queue, ?_, hcons, fun hp => ?_⟩
  · unfold LinkedKernel.yield LinkedKernel.chooseAnother
    simp only [hrun, heq, hm, setLists, Option.bind_eq_bind, Option.bind_some]
  · rw [hview]
    exact ((hp.switching hch).setSched SchedulingList.chooseAnother_perm
      (SchedulingList.chooseAnother_isSome hsome)).placed_dispatch

/-- `pass()` to a thread that competes. -/
theorem pass (h : k.Consistent sched queue) (hc : c < k.cores)
    (ht : (k.view sched).Schedulable t) : ∃ k' sched', k'.Consistent sched' queue ∧
      k.pass c t = some (k', if k.chosen c = some t then none else some t) := by
  obtain ⟨prev, -, hrun, -, -⟩ := h.exists_chosen hc
  have hlt : k.core t < k.cores := h.queued.core_lt t (by
    cases ht with
    | inl hst => exact Option.ne_none_iff_exists'.mpr ⟨_, hst⟩
    | inr hst => exact Option.ne_none_iff_exists'.mpr ⟨_, hst⟩)
  obtain ⟨e, hch, -, -, -⟩ := h.exists_chosen hlt
  have hsome : (sched (k.core t)).chosen.isSome := Option.isSome_of_mem hch
  have hmem : t ∈ (sched (k.core t)).toList := (h.queued.mem_iff _ t).mpr ⟨ht, rfl⟩
  obtain ⟨m, sched', heq, hm, hcons, -⟩ := h.switch hch
    (F := (·.chooseElement k.priority t)) (f := fun l => l.chooseElement k.priority t)
    ((h.holds.readyList _).chooseElement hmem hsome (h.queued.nodup _))
    (SchedulingList.chooseElement_perm hmem) (SchedulingList.chooseElement_chosen hsome) prev
  refine ⟨_, sched', hcons, ?_⟩
  unfold LinkedKernel.pass LinkedKernel.chooseElement
  have hm' : (k.setLists m).chosen ((k.setLists m).core t) = some t := hm
  simp only [hrun, heq, hm', Option.bind_eq_bind, Option.bind_some, Option.some.injEq]

end Consistent

/-! ## Threads that stop competing -/

/-- `suspend()` takes the thread out of its list. -/
theorem Scheduled.suspend (h : k.Scheduled sched queue) (hc : c < k.cores)
    (hu : (k.view sched).Schedulable u) (hidle : u ≠ k.idle (k.core u)) :
    ∃ k' sched', k.suspend c u = some k' ∧ Moved k k' ∧ k'.Scheduled sched' queue ∧
      Leaves (k.view sched) (k'.view sched') u .suspended ∧
      ((k.view sched).Placed → (sched c).chosen = some u → (k'.view sched').Placed) := by
  obtain ⟨prev, hch, hrun, -, -⟩ := h.exists_chosen hc
  -- the thread leaves its list, and the core switches if it was running
  have hmem : u ∈ (sched (k.core u)).toList := (h.queued.mem_iff _ u).mpr ⟨hu, rfl⟩
  obtain ⟨m, heq, hm⟩ := remove_eq (k := k.setState u .suspended) h.holds hmem
  have hq : (((k.view sched).setState u .suspended).remove u).Queued :=
    h.queued.remove hu hidle (by simp)
  obtain ⟨next, hnext⟩ := Option.isSome_iff_exists.mp (hq.isSome c hc)
  have hview : (((k.setState u .suspended).setLists m).dispatch prev next).view
      (((k.view sched).setState u .suspended).remove u).sched =
        (((k.view sched).setState u .suspended).remove u).dispatch c prev := dispatch_view hnext
  have hm' : m.chosen c = some next := (hm.chosen c).trans hnext
  refine ⟨_, (((k.view sched).setState u .suspended).remove u).sched, ?_,
    moved_dispatch k m (Function.update k.state u (some .suspended)) prev next, ⟨?_, ?_⟩, ?_,
    fun hp hcu => ?_⟩
  · unfold LinkedKernel.suspend
    simp only [hrun, heq, Option.bind_eq_bind, Option.bind_some]
    show (m.chosen c).bind _ = _
    rw [hm']
    rfl
  · rw [dispatch_toLists]
    exact hm
  · exact hview ▸ hq.dispatch
  · exact hview ▸ h.queued.leave_state hu hidle (by simp)
  · -- a running thread is the one that is switched away from
    have hcore : k.core u = c := (h.queued.next_mem hcu).2
    obtain rfl : prev = u := Option.some.inj (hch.symm.trans hcu)
    subst hcore
    exact hview ▸ hp.leave hcu hidle (by simp)

/-- `suspend()` keeps the lists consistent. -/
theorem Consistent.suspend (h : k.Consistent sched queue) (hc : c < k.cores)
    (hu : (k.view sched).Schedulable u) (hidle : u ≠ k.idle (k.core u)) :
    Keeps ((k.view sched).Placed ∧ (sched c).chosen = some u) (k.suspend c u) := by
  obtain ⟨k', sched', heq, hm, hs, hl, hp⟩ := h.toScheduled.suspend hc hu hidle
  exact ⟨k', sched', queue, heq, ⟨hs, h.waits.leave hm hu hl (by simp)⟩, fun hP => hp hP.1 hP.2⟩

/-- The caller is suspended until `u` resumes it. -/
theorem Waits.join (h : k.Waits queue) (ht : (k.view sched).Schedulable t)
    (hm : Moved (k.setJoining u (some t)) k')
    (hl : Leaves (k.view sched) (k'.view sched') t .suspended) : k'.Waits queue := by
  have hm' : Moved k (k'.setJoining u (k.joining u)) := by
    obtain ⟨m, st, rfl⟩ := hm
    refine ⟨m, st, ?_⟩
    unfold setJoining
    simp only [Function.update_idem, Function.update_eq_self]
  have hl' : Leaves (k.view sched) ((k'.setJoining u (k.joining u)).view sched') t .suspended := hl
  have hw := h.leave hm' ht hl' (by simp)
  have hjoining : k'.joining = Function.update k.joining u (some t) := by
    obtain ⟨m, st, rfl⟩ := hm
    rfl
  have hold (v x : Tid) (hx : k'.joining v = some x) : (v = u ∧ x = t) ∨ k.joining v = some x := by
    rw [hjoining] at hx
    by_cases hv : v = u
    · subst hv
      rw [Function.update_self, Option.some.injEq] at hx
      exact .inl ⟨rfl, hx.symm⟩
    · rw [Function.update_of_ne hv] at hx
      exact .inr hx
  -- A thread that joins is suspended, and `t` is running.
  have hnot (v : Tid) : k.joining v ≠ some t := fun hv =>
    schedulable_ne ht (by simp) (h.joined v t hv)
  have hsusp (x : Tid) (hx : k.state x = some .suspended) : k'.state x = some .suspended := by
    have hne : x ≠ t := fun heq => schedulable_ne ht (by simp) (heq ▸ hx)
    exact (state_iff (hl.2 x hne).1 (hl.2 x hne).2 (by simp)).mpr hx
  refine ⟨hw.mem_iff, hw.waitsOn, hw.forgotten, fun v x hx => ?_, fun v w x hv hx => ?_⟩
  · cases hold v x hx with
    | inl heq => exact heq.2 ▸ hl.1
    | inr hx => exact hsusp x (h.joined v x hx)
  · cases hold v x hv with
    | inl heq =>
      cases hold w x hx with
      | inl heq' => exact heq.1.trans heq'.1.symm
      | inr hx => exact absurd (heq.2 ▸ hx) (hnot w)
    | inr hv =>
      cases hold w x hx with
      | inl heq' => exact absurd (heq'.2 ▸ hv) (hnot v)
      | inr hx => exact h.joined_inj v w x hv hx

/-- `join()` keeps the lists consistent. -/
theorem Consistent.join (h : k.Consistent sched queue) (hc : k.Runs c) :
    Keeps (k.view sched).Placed (k.join c u) := by
  unfold LinkedKernel.join
  split
  · exact ⟨k, sched, queue, rfl, h, id⟩
  · obtain ⟨prev, hch, hrun, hcore, hs, hidle⟩ := h.exists_caller hc
    have hjoin : (k.setJoining u (some prev)).Scheduled sched queue :=
      ⟨h.holds, h.queued.congr rfl rfl rfl⟩
    obtain ⟨k', sched', heq, hm, hs', hl, hp⟩ := hjoin.suspend hc.1 hs hidle
    refine ⟨k', sched', queue, ?_, ⟨hs', h.waits.join hs hm hl⟩, fun hP => hp ?_ hch⟩
    · simp only [hrun, heq, Option.bind_eq_bind, Option.bind_some]
    · exact hP.congr rfl rfl rfl

/-- The caller waits in the queue `s`. -/
theorem Waits.sleep (h : k.Waits queue) (ht : (k.view sched).Schedulable t)
    (hm : Moved (k.setWaiting t s) k')
    (hl : Leaves (k.view sched) (k'.view sched') t .waiting) :
    k'.Waits (Function.update queue s (k.enqueued s t (queue s))) := by
  have hnw : k.state t ≠ some .waiting := schedulable_ne ht (by simp)
  obtain ⟨hnone, hnone'⟩ := h.forgotten t hnw
  -- only the one field of `t` that remembers a queue changes
  have hfifo : k'.fifo = k.fifo := by
    obtain ⟨m, st, rfl⟩ := hm
    unfold setWaiting
    split <;> rfl
  have hjoining : k'.joining = k.joining := by
    obtain ⟨m, st, rfl⟩ := hm
    unfold setWaiting
    split <;> rfl
  have hother (u : Tid) (hu : u ≠ t) :
      k'.waiting u = k.waiting u ∧ k'.waitingFifo u = k.waitingFifo u := by
    obtain ⟨m, st, rfl⟩ := hm
    unfold setWaiting
    split
    · exact ⟨rfl, Function.update_of_ne hu _ _⟩
    · exact ⟨Function.update_of_ne hu _ _, rfl⟩
  have hon (u : Tid) (hu : u ≠ t) (r : Sid) : k'.WaitsOn u r ↔ k.WaitsOn u r := by
    unfold WaitsOn
    rw [hfifo, (hother u hu).1, (hother u hu).2]
  have hself : k'.WaitsOn t s := by
    unfold WaitsOn
    rw [hfifo]
    obtain ⟨m, st, rfl⟩ := hm
    unfold setWaiting
    by_cases hf : k.fifo s
    · simp only [if_pos hf]
      exact ⟨Function.update_self _ _ _, hnone⟩
    · simp only [if_neg hf]
      exact ⟨Function.update_self _ _ _, hnone'⟩
  have hwait (u : Tid) (hu : u ≠ t) : k'.state u = some .waiting ↔ k.state u = some .waiting :=
    state_iff (hl.2 u hu).1 (hl.2 u hu).2 (by simp)
  -- `t` was in no queue before
  have hnq (r : Sid) : t ∉ queue r := fun hmem => hnw ((h.mem_iff r t).mp hmem).1
  constructor
  · intro r u
    by_cases hu : u = t
    · subst hu
      by_cases hr : r = s
      · subst hr
        rw [Function.update_self, mem_enqueued]
        exact ⟨fun _ => ⟨hl.1, hself⟩, fun _ => .inl rfl⟩
      · rw [Function.update_of_ne hr]
        exact ⟨fun hmem => absurd hmem (hnq r), fun hon => absurd (hon.2.unique hself) hr⟩
    · rw [hwait u hu, hon u hu, ← h.mem_iff]
      by_cases hr : r = s
      · subst hr
        rw [Function.update_self, mem_enqueued]
        exact or_iff_right hu
      · rw [Function.update_of_ne hr]
  · intro u hu
    by_cases hut : u = t
    · exact ⟨s, hut ▸ hself⟩
    · obtain ⟨r, hr⟩ := h.waitsOn u ((hwait u hut).mp hu)
      exact ⟨r, (hon u hut r).mpr hr⟩
  · intro u hu
    have hut : u ≠ t := fun heq => hu (heq ▸ hl.1)
    rw [(hother u hut).1, (hother u hut).2]
    exact h.forgotten u (mt (hwait u hut).mpr hu)
  · intro u x hx
    rw [hjoining] at hx
    have hsusp := h.joined u x hx
    have hxt : x ≠ t := fun heq => schedulable_ne ht (by simp) (heq ▸ hsusp)
    exact (state_iff (hl.2 x hxt).1 (hl.2 x hxt).2 (by simp)).mpr hsusp
  · rw [hjoining]
    exact h.joined_inj

/-- Waiting changes nothing that the scheduler sees. -/
theorem setWaiting_view (k : LinkedKernel) (t : Tid) (s : Sid) (sched : Nat → SchedulingList) :
    (k.setWaiting t s).view sched = k.view sched := by
  unfold setWaiting
  split <;> rfl

/-- What a thread remembers does not depend on its state and on the lists. -/
theorem setWaiting_comm (k : LinkedKernel) (m : Lists) (t : Tid) (st : State) (s : Sid) :
    ((k.setLists m).setState t st).setWaiting t s =
      ((k.setWaiting t s).setState t st).setLists m := by
  unfold setWaiting
  show (if k.fifo s then _ else _) = _
  split <;> rfl

/-- Waiting changes no order of the queue. -/
theorem enqueued_setWaiting (k : LinkedKernel) (t : Tid) (s : Sid) (l : List Tid) :
    (k.setWaiting t s).enqueued s t l = k.enqueued s t l := by
  unfold enqueued setWaiting
  split <;> simp [*]

/-- `sleep()` keeps the lists consistent. -/
theorem Consistent.sleep (h : k.Consistent sched queue) (hc : k.Runs c) :
    Keeps (k.view sched).Placed (k.sleep c s) := by
  obtain ⟨prev, hch, hrun, hcore, hs, hidle⟩ := h.exists_caller hc
  have hmem : prev ∈ (sched (k.core prev)).toList :=
    (h.queued.mem_iff _ prev).mpr ⟨hs, rfl⟩
  obtain ⟨m, heq, hm⟩ := remove_eq h.holds hmem
  have hq : (((k.view sched).setState prev .waiting).remove prev).Queued :=
    h.queued.remove hs hidle (by simp)
  -- the caller is in no list between its removal and its insertion
  have hun : Unlisted ((k.view sched).remove prev).sched queue prev := by
    intro i hi
    apply h.unlisted_of_chosen hch i
    cases i with
    | ready d =>
      have hsub : (((k.view sched).remove prev).sched d).list ⊆ (sched d).list := by
        rw [Kernel.remove_sched]
        split
        · rename_i hd
          subst hd
          exact remove_list_subset _ _
        · exact List.Subset.refl _
      exact hsub hi
    | queue r => exact hi
  let k₁ := (k.setWaiting prev s).setState prev .waiting
  obtain ⟨m', heq', hm'⟩ := enqueue_eq (k := k₁.setLists m) (s := s) hm hun
  obtain ⟨next, hnext⟩ := Option.isSome_iff_exists.mp (hq.isSome c hc.1)
  have hnext' : m'.chosen c = some next := (hm'.chosen c).trans hnext
  have hinner : (k₁.setLists m').view ((k.view sched).remove prev).sched =
      ((k.view sched).setState prev .waiting).remove prev := by
    show ((k.setWaiting prev s).view _).setState prev .waiting = _
    rw [setWaiting_view]
    rfl
  have hview : ((k₁.setLists m').dispatch prev next).view ((k.view sched).remove prev).sched =
      (((k.view sched).setState prev .waiting).remove prev).dispatch c prev := by
    rw [← hinner]
    exact dispatch_view hnext
  have hl : Leaves (k.view sched)
      (((k₁.setLists m').dispatch prev next).view ((k.view sched).remove prev).sched) prev
      .waiting := hview ▸ h.queued.leave_state hs hidle (by simp)
  have hins : (((k.setWaiting prev s).setState prev .waiting).setLists m).enqueue s prev =
      some (k₁.setLists m') := heq'
  have hqueue : (k₁.setLists m).enqueued s prev (queue s) = k.enqueued s prev (queue s) :=
    enqueued_setWaiting k prev s (queue s)
  refine ⟨(k₁.setLists m').dispatch prev next, _, _, ?_, ⟨⟨?_, hview ▸ hq.dispatch⟩,
    h.waits.sleep hs (moved_dispatch _ m' _ prev next) hl⟩, fun hp => ?_⟩
  · unfold LinkedKernel.sleep
    simp only [hrun, heq, Option.bind_eq_bind, Option.bind_some, setWaiting_comm, hins]
    show (m'.chosen c).bind _ = _
    rw [hnext']
    rfl
  · rw [dispatch_toLists, ← hqueue]
    exact hm'
  · subst hcore
    exact hview ▸ hp.leave hch hidle (by simp)

/-! ## Threads that become ready -/

/-- A thread that is in no list enters that of its core. -/
theorem Scheduled.enter (h : k.Scheduled sched queue) (ht : ¬(k.view sched).Schedulable t)
    (hlt : k.core t < k.cores) (hun : Unlisted sched queue t) :
    ∃ m, (k.setState t .ready).insert t = some ((k.setState t .ready).setLists m) ∧
      ((k.setState t .ready).setLists m).Scheduled
        (((k.view sched).setState t .ready).insert t).sched queue := by
  obtain ⟨m, heq, hm⟩ := insert_eq (k := k.setState t .ready) h.holds hun
  exact ⟨m, heq, hm, h.queued.insert ht hlt⟩

/-- The state of one thread changes. -/
theorem setState_state (k : LinkedKernel) (t : Tid) (st : State) (u : Tid) :
    (k.setState t st).state u = if u = t then some st else k.state u :=
  Function.update_apply _ _ _ _

/-- Every thread that exists is on a core. -/
theorem core_lt_of_state (h : k.Scheduled sched queue) (hst : k.state t = some st) :
    k.core t < k.cores :=
  h.queued.core_lt t (Option.ne_none_iff_exists'.mpr ⟨st, hst⟩)

/-- Only the states running and ready compete. -/
theorem not_schedulable (hst : k.state t = some st) (hne : st ≠ .running ∧ st ≠ .ready) :
    ¬(k.view sched).Schedulable t :=
  fun hs => schedulable_ne hs hne hst

/-- `resume()` keeps the lists consistent. -/
theorem Consistent.resume (h : k.Consistent sched queue) (hc : c < k.cores)
    (hj : ∀ v, k.joining v ≠ some u) : Keeps (k.view sched).Placed (k.resume c u) := by
  unfold LinkedKernel.resume
  split
  · rename_i hst
    -- u is suspended, so it is in no list and in no queue
    have hns : ¬(k.view sched).Schedulable u := not_schedulable hst (by simp)
    have hlt := core_lt_of_state h.toScheduled hst
    have hun := h.unlisted hns (by simp [hst])
    obtain ⟨m, heq, hs⟩ := h.toScheduled.enter hns hlt hun
    -- u joins nobody, so nobody waits for another thread than before
    have hw : ((k.setState u .ready).setLists m).Waits queue := by
      refine h.waits.congr rfl rfl rfl (fun x => ?_) fun v x hx => ⟨hx, ?_⟩
      · show (k.setState u .ready).state x = _ ↔ _
        rw [setState_state]
        by_cases hx : x = u
        · simp [hx, hst]
        · rw [if_neg hx]
      · have hxu : x ≠ u := fun heq => hj v (heq ▸ hx)
        show (k.setState u .ready).state x = _
        rw [setState_state, if_neg hxu]
        exact h.waits.joined v x hx
    have hcons : ((k.setState u .ready).setLists m).Consistent _ queue := ⟨hs, hw⟩
    obtain ⟨k', sched', queue', heq', hk', hp⟩ :=
      hcons.preempt hc ((k.setState u .ready).core u)
    refine ⟨k', sched', queue', ?_, hk', fun hP => hp ?_⟩
    · simp only [heq, Option.bind_eq_bind, Option.bind_some]
      exact heq'
    · exact hP.insert hns hlt
  · exact ⟨k, sched, queue, rfl, h, id⟩

/-! ### Waking up -/

/-- Waiting no more changes nothing that the scheduler sees. -/
theorem clearWaiting_view (k : LinkedKernel) (t : Tid) (s : Sid) (sched : Nat → SchedulingList) :
    (k.clearWaiting t s).view sched = k.view sched := by
  unfold clearWaiting
  split <;> rfl

/-- When the waiting is cleared does not matter. -/
theorem clearWaiting_comm (k : LinkedKernel) (m : Lists) (t : Tid) (st : State) (s : Sid) :
    ((k.setLists m).setState t st).clearWaiting t s =
      ((k.clearWaiting t s).setLists m).setState t st := by
  unfold clearWaiting
  show (if k.fifo s then _ else _) = _
  split <;> rfl

/-- The first thread of the queue `s` is ready. -/
theorem Waits.wake {rest : List Tid} (h : k.Waits queue) (hq : queue s = t :: rest)
    (ht : t ∉ rest) (m : Lists) :
    (((k.clearWaiting t s).setState t .ready).setLists m).Waits
      (Function.update queue s rest) := by
  obtain ⟨hst, hon⟩ := (h.mem_iff s t).mp (hq ▸ List.mem_cons_self)
  have hfields : (k.clearWaiting t s).fifo = k.fifo ∧ (k.clearWaiting t s).state = k.state ∧
      (k.clearWaiting t s).joining = k.joining := by
    unfold clearWaiting
    split <;> exact ⟨rfl, rfl, rfl⟩
  obtain ⟨hfifo, hstate, hjoining⟩ := hfields
  have hother (u : Tid) (hu : u ≠ t) : (k.clearWaiting t s).waiting u = k.waiting u ∧
      (k.clearWaiting t s).waitingFifo u = k.waitingFifo u := by
    unfold clearWaiting
    split
    · exact ⟨rfl, Function.update_of_ne hu _ _⟩
    · exact ⟨Function.update_of_ne hu _ _, rfl⟩
  -- which of the two fields of `t` was set depends on the kind of the queue
  have hself : (k.clearWaiting t s).waiting t = none ∧
      (k.clearWaiting t s).waitingFifo t = none := by
    unfold WaitsOn at hon
    unfold clearWaiting
    by_cases hf : k.fifo s
    · rw [if_pos hf] at hon ⊢
      exact ⟨hon.2, Function.update_self _ _ _⟩
    · rw [if_neg hf] at hon ⊢
      exact ⟨Function.update_self _ _ _, hon.2⟩
  have hst' (u : Tid) : (((k.clearWaiting t s).setState t .ready).setLists m).state u =
      if u = t then some .ready else k.state u :=
    (setState_state _ t .ready u).trans (by rw [hstate])
  have hon' (u : Tid) (hu : u ≠ t) (r : Sid) :
      (((k.clearWaiting t s).setState t .ready).setLists m).WaitsOn u r ↔ k.WaitsOn u r := by
    show (if (k.clearWaiting t s).fifo r then
        (k.clearWaiting t s).waitingFifo u = some r ∧ (k.clearWaiting t s).waiting u = none
      else (k.clearWaiting t s).waiting u = some r ∧ (k.clearWaiting t s).waitingFifo u = none) ↔ _
    rw [hfifo, (hother u hu).1, (hother u hu).2]
    rfl
  constructor
  · intro r u
    rw [hst']
    by_cases hu : u = t
    · subst hu
      -- `t` was only in `s`, and is not in the rest of it
      have hout : u ∉ Function.update queue s rest r := by
        by_cases hr : r = s
        · subst hr
          rwa [Function.update_self]
        · rw [Function.update_of_ne hr]
          exact fun hmem => hr (((h.mem_iff r u).mp hmem).2.unique hon)
      simp [hout]
    · rw [if_neg hu, hon' u hu, ← h.mem_iff]
      by_cases hr : r = s
      · subst hr
        rw [Function.update_self, hq, List.mem_cons]
        exact (or_iff_right hu).symm
      · rw [Function.update_of_ne hr]
  · intro u hu
    rw [hst'] at hu
    by_cases hut : u = t
    · simp [hut] at hu
    · rw [if_neg hut] at hu
      obtain ⟨r, hr⟩ := h.waitsOn u hu
      exact ⟨r, (hon' u hut r).mpr hr⟩
  · intro u hu
    rw [hst'] at hu
    by_cases hut : u = t
    · exact hut ▸ hself
    · rw [if_neg hut] at hu
      show (k.clearWaiting t s).waiting u = none ∧ (k.clearWaiting t s).waitingFifo u = none
      rw [(hother u hut).1, (hother u hut).2]
      exact h.forgotten u hu
  · intro v x hx
    have hsusp := h.joined v x (hjoining ▸ hx)
    have hxt : x ≠ t := fun heq => absurd (hst.symm.trans (heq ▸ hsusp)) (by simp)
    rw [hst', if_neg hxt]
    exact hsusp
  · show ∀ u v x, (k.clearWaiting t s).joining u = _ → (k.clearWaiting t s).joining v = _ → _
    rw [hjoining]
    exact h.joined_inj

/-- The head of a queue leaves it and enters the list of its core. -/
theorem Consistent.wake {rest : List Tid} (h : k.Consistent sched queue)
    (hq : queue s = t :: rest) : ∃ k' sched', k.wake s = some (t, k') ∧
      k'.Consistent sched' (Function.update queue s rest) ∧
      k'.view sched' = ((k.view sched).setState t .ready).insert t := by
  have hmem : t ∈ queue s := hq ▸ List.mem_cons_self
  obtain ⟨hst, hon⟩ := (h.waits.mem_iff s t).mp hmem
  have hns : ¬(k.view sched).Schedulable t := not_schedulable hst (by simp)
  have hnd : t ∉ rest := by
    have hnodup := (h.holds.waitingQueue s).nodup
    rw [hq] at hnodup
    exact (List.nodup_cons.mp hnodup).1
  -- between its queue and its ready list the thread is in no list
  have hun : Unlisted sched (Function.update queue s rest) t := by
    intro i hi
    cases i with
    | ready d => exact hns ((h.queued.mem_iff d t).mp (SchedulingList.mem_toList_of_list hi)).1
    | queue r =>
      change t ∈ Function.update queue s rest r at hi
      by_cases hr : r = s
      · subst hr
        rw [Function.update_self] at hi
        exact hnd hi
      · rw [Function.update_of_ne hr] at hi
        exact hr (((h.waits.mem_iff r t).mp hi).2.unique hon)
  obtain ⟨m, heq, hm⟩ := dequeue_eq (s := s) h.holds
  rw [hq] at heq hm
  have hview : ((k.clearWaiting t s).setLists m).view sched = k.view sched :=
    clearWaiting_view k t s sched
  have hs : ((k.clearWaiting t s).setLists m).Scheduled sched (Function.update queue s rest) :=
    ⟨hm, hview ▸ h.queued⟩
  have hlt : ((k.clearWaiting t s).setLists m).core t < ((k.clearWaiting t s).setLists m).cores :=
    core_lt_of_state hs ((congrFun (congrArg Kernel.state hview) t).trans hst)
  obtain ⟨m', heq', hs'⟩ := hs.enter (hview ▸ hns) hlt hun
  refine ⟨_, _, ?_, ⟨hs', h.waits.wake hq hnd m'⟩, ?_⟩
  · unfold LinkedKernel.wake
    simp only [heq, List.head?_cons, Option.bind_eq_bind, Option.bind_some, clearWaiting_comm,
      heq']
  · rw [hview]
    show ({ ((k.clearWaiting t s).view sched).setState t .ready with sched := _ } : Kernel) = _
    rw [clearWaiting_view]
    rfl

/-- What waking up does for the placement of the threads, whoever is woken up. -/
theorem Consistent.placed_wake (h : k.Consistent sched queue) (ht : t ∈ queue s)
    (hp : (k.view sched).Placed) : (((k.view sched).setState t .ready).insert t).Placed := by
  have hst := ((h.waits.mem_iff s t).mp ht).1
  exact hp.insert (not_schedulable hst (by simp)) (core_lt_of_state h.toScheduled hst)

/-- `wakeup()` keeps the lists consistent. -/
theorem Consistent.wakeup (h : k.Consistent sched queue) (hc : c < k.cores) :
    Keeps (k.view sched).Placed (k.wakeup c s) := by
  unfold LinkedKernel.wakeup
  have hempty : (k.list (.queue s)).empty = (queue s).isEmpty :=
    LinkedList.Represents.empty_eq (h.holds.waitingQueue s)
  rw [hempty]
  cases hq : queue s with
  | nil => exact ⟨k, sched, queue, rfl, h, id⟩
  | cons t rest =>
    obtain ⟨k', sched', heq, hk', hview⟩ := h.wake hq
    have hcores : k'.cores = k.cores := congrArg (fun v : Kernel => v.cores) hview
    obtain ⟨k'', sched'', queue'', heq', hk'', hp⟩ :=
      hk'.preempt (hcores ▸ hc) (k'.core t)
    refine ⟨k'', sched'', queue'', ?_, hk'', fun hP => hp ?_⟩
    · simp only [List.isEmpty_cons, Bool.false_eq_true, if_false, heq, Option.bind_eq_bind,
        Option.bind_some]
      exact heq'
    · rw [hview]
      exact h.placed_wake (hq ▸ List.mem_cons_self) hP

/-- The loop of `wakeup_all()` keeps the lists consistent. -/
theorem Consistent.wakeLoop {n : Nat} (h : k.Consistent sched queue)
    (hn : (queue s).length ≤ n) (cpus : List Nat) :
    ∃ cpus' k' sched' queue', k.wakeLoop s cpus n = some (cpus', k') ∧
      k'.Consistent sched' queue' ∧ k'.cores = k.cores ∧
      ((k.view sched).Placed → (k'.view sched').Placed) := by
  induction n generalizing k sched queue cpus with
  | zero =>
    -- nobody is queued any more
    have hnil : queue s = [] := List.length_eq_zero_iff.mp (Nat.le_zero.mp hn)
    have hempty : (k.list (.queue s)).empty = true := by
      rw [LinkedList.Represents.empty_eq (h.holds.waitingQueue s), hnil]
      rfl
    refine ⟨cpus, k, sched, queue, ?_, h, rfl, id⟩
    unfold LinkedKernel.wakeLoop
    rw [if_pos hempty]
  | succ n ih =>
    have hempty : (k.list (.queue s)).empty = (queue s).isEmpty :=
      LinkedList.Represents.empty_eq (h.holds.waitingQueue s)
    unfold LinkedKernel.wakeLoop
    rw [hempty]
    cases hq : queue s with
    | nil => exact ⟨cpus, k, sched, queue, rfl, h, rfl, id⟩
    | cons t rest =>
      -- the head is woken up, and the loop goes on with the rest
      obtain ⟨k', sched', heq, hk', hview⟩ := h.wake hq
      have hcores : k'.cores = k.cores := congrArg (fun v : Kernel => v.cores) hview
      have hn' : (Function.update queue s rest s).length ≤ n := by
        rw [hq, List.length_cons] at hn
        rw [Function.update_self]
        exact Nat.le_of_succ_le_succ hn
      obtain ⟨cpus', k'', sched'', queue'', heq', hk'', hcores', hp⟩ := ih hk' hn' (k'.core t :: cpus)
      refine ⟨cpus', k'', sched'', queue'', ?_, hk'', hcores'.trans hcores, fun hP => hp ?_⟩
      · simp only [List.isEmpty_cons, Bool.false_eq_true, if_false, heq, Option.bind_eq_bind,
          Option.bind_some]
        exact heq'
      · rw [hview]
        exact h.placed_wake (hq ▸ List.mem_cons_self) hP

/-- `wakeup_all()` keeps the lists consistent. -/
theorem Consistent.wakeupAll (h : k.Consistent sched queue) (hc : c < k.cores) :
    Keeps (k.view sched).Placed (k.wakeupAll c s) := by
  have hsize : (k.header (.queue s)).size = (queue s).length := (h.holds.waitingQueue s).size
  have hn : (queue s).length ≤ (k.header (.queue s)).size.toNat := by
    rw [hsize]
    exact Nat.le_refl _
  obtain ⟨cpus, k', sched', queue', heq, hk', hcores, hp⟩ := h.wakeLoop hn []
  unfold LinkedKernel.wakeupAll
  simp only [heq, Option.bind_eq_bind, Option.bind_some]
  split
  · obtain ⟨k'', sched'', queue'', heq', hk'', hp'⟩ := hk'.reschedule (c := c) (hcores ▸ hc)
    exact ⟨k'', sched'', queue'', heq', hk'', fun hP => hp' (hp hP)⟩
  · exact ⟨k', sched', queue', rfl, hk', hp⟩

/-! ## Exiting -/

/-- A thread that is removed has left. -/
theorem leaves_remove {v : Kernel} (hst : st ≠ .running ∧ st ≠ .ready) :
    Leaves v ((v.setState t st).remove t) t st := by
  constructor
  · show (v.setState t st).state t = _
    rw [Kernel.setState_state, if_pos rfl]
  · intro u hu
    refine ⟨(Kernel.setState_remove_schedulable hst).trans (and_iff_right hu), fun _ => ?_⟩
    show (v.setState t st).state u = _
    rw [Kernel.setState_state, if_neg hu]

/-- The thread that joined `t` is ready again. -/
theorem Consistent.resumeJoiner (h : k.Consistent sched queue) (hnj : k.joining t ≠ some t) :
    ∃ k' sched', k.resumeJoiner t = some k' ∧ k'.Consistent sched' queue ∧
      k'.cores = k.cores ∧ k'.priority = k.priority ∧ k'.eligible = k.eligible ∧
      ((k.view sched).Switching c t → (k'.view sched').Switching c t) := by
  unfold LinkedKernel.resumeJoiner
  cases hj : k.joining t with
  | none => exact ⟨k, sched, rfl, h, rfl, rfl, rfl, id⟩
  | some j =>
    have hst := h.waits.joined t j hj
    have hns : ¬(k.view sched).Schedulable j := not_schedulable hst (by simp)
    have hlt := core_lt_of_state h.toScheduled hst
    have hjt : j ≠ t := fun heq => hnj (heq ▸ hj)
    obtain ⟨m, heq, hs⟩ := h.toScheduled.enter hns hlt (h.unlisted hns (by simp [hst]))
    have hw : (((k.setState j .ready).setLists m).setJoining t none).Waits queue := by
      refine h.waits.congr rfl rfl rfl (fun x => ?_) fun v x hx => ?_
      · show (k.setState j .ready).state x = _ ↔ _
        rw [setState_state]
        by_cases hx : x = j
        · simp [hx, hst]
        · rw [if_neg hx]
      · change Function.update k.joining t none v = some x at hx
        have hv : v ≠ t := by
          rintro rfl
          simp at hx
        rw [Function.update_of_ne hv] at hx
        -- Nobody else is waited for by `j`.
        have hxj : x ≠ j := fun heq => hv (h.waits.joined_inj v t j (heq ▸ hx) hj)
        refine ⟨hx, ?_⟩
        show (k.setState j .ready).state x = _
        rw [setState_state, if_neg hxj]
        exact h.waits.joined v x hx
    refine ⟨((k.setState j .ready).setLists m).setJoining t none, _, ?_,
      ⟨⟨hs.holds, hs.queued.congr rfl rfl rfl⟩, hw⟩, rfl, rfl, rfl, fun hsw => ?_⟩
    · simp only [heq, Option.bind_eq_bind, Option.bind_some]
    · have hin := hsw.insert hns hlt hjt
      exact ⟨⟨hin.mem_iff, hin.nodup, hin.isSome, hin.idle, hin.core_lt⟩, hin.elsewhere, hin.here,
        hin.prev_state, hin.prev_core, hin.lt⟩

/-- `exit()` keeps the lists consistent. -/
theorem Consistent.exit (h : k.Consistent sched queue) (hc : k.Runs c) :
    Keeps (k.view sched).Placed (k.exit c) := by
  obtain ⟨prev, hch, hrun, hcore, hs, hidle⟩ := h.exists_caller hc
  have hmem : prev ∈ (sched (k.core prev)).toList :=
    (h.queued.mem_iff _ prev).mpr ⟨hs, rfl⟩
  -- the thread leaves, its joining thread enters, and the core switches
  obtain ⟨m, heq, hm⟩ := remove_eq h.holds hmem
  have hq : (((k.view sched).setState prev .finishing).remove prev).Queued :=
    h.queued.remove hs hidle (by simp)
  have hleft : ((k.setLists m).setState prev .finishing).Consistent
      (((k.view sched).setState prev .finishing).remove prev).sched queue :=
    ⟨⟨hm, hq⟩, h.waits.leave ⟨m, _, rfl⟩ hs (leaves_remove (by simp)) (by simp)⟩
  have hnj : k.joining prev ≠ some prev := fun hj =>
    schedulable_ne hs (by simp) (h.waits.joined prev prev hj)
  obtain ⟨k', sched', heq', hk', hcores, hprio, helig, hsw⟩ := hleft.resumeJoiner (c := c) hnj
  have hc' : c < k'.cores := hcores ▸ hc.1
  obtain ⟨e, hche, -, -, -⟩ := hk'.exists_chosen hc'
  have hsome : (sched' c).chosen.isSome := Option.isSome_of_mem hche
  have hsome' : ((sched' c).choose k'.priority k'.eligible).chosen.isSome :=
    SchedulingList.choose_isSome hsome
  obtain ⟨next, hnext⟩ := Option.isSome_iff_exists.mp hsome'
  obtain ⟨m', sched'', heq'', hm', hcons, hview⟩ := hk'.switch hche
    (f := fun l => l.choose k'.priority k'.eligible)
    ((hk'.holds.readyList c).choose hsome (hk'.queued.nodup c)) SchedulingList.choose_perm hnext
    prev
  refine ⟨_, sched'', queue, ?_, hcons, fun hP => ?_⟩
  · unfold LinkedKernel.exit LinkedKernel.choose
    simp only [hrun, heq, heq', heq'', Option.bind_eq_bind, Option.bind_some]
    show (m'.chosen c).bind _ = _
    rw [hm']
    rfl
  · subst hcore
    have hsw' := hsw (hP.remove_running hch hidle (by simp))
    rw [hview]
    exact (hsw'.setSched SchedulingList.choose_perm hsome').placed_dispatch

/-! ## New threads -/

/-- The constructor before it sets the state of the new thread. -/
def prepare (k : LinkedKernel) (t : Tid) (st : State) (crit : Criterion) : LinkedKernel :=
  { k.construct t st crit with state := k.state }

/-- The constructor prepares the thread and sets its state. -/
theorem construct_eq (k : LinkedKernel) (t : Tid) (st : State) (crit : Criterion) :
    k.construct t st crit = (k.prepare t st crit).setState t st := rfl

/-- A thread that does not exist is in no list. -/
theorem Consistent.unborn (h : k.Consistent sched queue) (ht : k.state t = none) :
    ¬(k.view sched).Schedulable t ∧ Unlisted sched queue t := by
  have hns : ¬(k.view sched).Schedulable t := by
    intro hs
    cases hs with
    | inl hst => exact absurd (ht.symm.trans hst) (by simp)
    | inr hst => exact absurd (ht.symm.trans hst) (by simp)
  exact ⟨hns, h.unlisted hns (by simp [ht])⟩

/-- Preparing a thread touches no list. -/
theorem Consistent.prepare {crit : Criterion} (h : k.Consistent sched queue) (st : State)
    (ht : k.state t = none) (hlt : crit.queue < k.cores) :
    (k.prepare t st crit).Scheduled sched queue ∧
      ((k.view sched).Placed → ((k.prepare t st crit).view sched).Placed) := by
  obtain ⟨hns, hun⟩ := h.unborn ht
  have hoff : k.links.EqOff ((k.links.setPrev t none).setNext t none) [t] :=
    (Links.EqOff.setPrev List.mem_cons_self).trans (Links.EqOff.setNext List.mem_cons_self)
  have hcore : ((k.prepare t st crit).view sched).core t < k.cores := by
    show Function.update k.core t crit.queue t < k.cores
    rwa [Function.update_self]
  have hold (u : Tid) (hu : u ≠ t) :
      ((k.prepare t st crit).view sched).state u = (k.view sched).state u ∧
        ((k.prepare t st crit).view sched).core u = (k.view sched).core u :=
    ⟨rfl, Function.update_of_ne hu _ _⟩
  exact ⟨⟨h.holds.setLinks hun hoff, h.queued.change rfl rfl rfl hns hns hcore hold⟩,
    fun hp => hp.change rfl rfl rfl hns hns hcore hold⟩

/-- A new thread waits for nothing. -/
theorem Waits.create {crit : Criterion} (h : k.Waits queue) (ht : k.state t = none)
    (hst : st ≠ .waiting) (m : Lists) : ((k.construct t st crit).setLists m).Waits queue := by
  obtain ⟨hw, hw'⟩ := h.forgotten t (by simp [ht])
  refine h.congr rfl ?_ ?_ (fun u => ?_) fun u x hx => ?_
  · exact (congrArg (Function.update k.waiting t) hw.symm).trans (Function.update_eq_self t _)
  · exact (congrArg (Function.update k.waitingFifo t) hw'.symm).trans (Function.update_eq_self t _)
  · show (k.setState t st).state u = _ ↔ _
    rw [setState_state]
    by_cases hu : u = t
    · simp [hu, ht, hst]
    · rw [if_neg hu]
  · change Function.update k.joining t none u = some x at hx
    have hu : u ≠ t := by
      rintro rfl
      simp at hx
    rw [Function.update_of_ne hu] at hx
    have hsusp := h.joined u x hx
    have hxt : x ≠ t := by
      rintro rfl
      simp [ht] at hsusp
    refine ⟨hx, ?_⟩
    show (k.setState t st).state x = _
    rw [setState_state, if_neg hxt]
    exact hsusp

/-- The constructor keeps the lists consistent. -/
theorem Consistent.create {crit : Criterion} (h : k.Consistent sched queue) (hc : c < k.cores)
    (ht : k.state t = none) (hlt : crit.queue < k.cores) (hst : st = .ready ∨ st = .suspended) :
    Keeps (k.view sched).Placed (k.create c t st crit) := by
  obtain ⟨hns, hun⟩ := h.unborn ht
  obtain ⟨hs, hp⟩ := h.prepare st ht hlt
  have hcore : (k.prepare t st crit).core t < k.cores := by
    show Function.update k.core t crit.queue t < k.cores
    rwa [Function.update_self]
  unfold LinkedKernel.create
  rw [construct_eq]
  cases hst with
  | inl hready =>
    subst hready
    obtain ⟨m, heq, hs'⟩ := hs.enter hns hcore hun
    have hcons : (((k.prepare t .ready crit).setState t .ready).setLists m).Consistent _ queue :=
      ⟨hs', h.waits.create ht (by simp) m⟩
    simp only [heq, Option.bind_eq_bind, Option.bind_some, ne_eq, not_true_eq_false, reduceCtorEq,
      not_false_eq_true, and_true, if_false, true_and]
    split
    · obtain ⟨k', sched', queue', heq', hk', hp'⟩ :=
        hcons.preempt hc ((k.prepare t .ready crit).core t)
      exact ⟨k', sched', queue', heq', hk', fun hP => hp' ((hp hP).insert hns hcore)⟩
    · exact ⟨_, _, queue, rfl, hcons, fun hP => (hp hP).insert hns hcore⟩
  | inr hsusp =>
    subst hsusp
    let v := (k.prepare t .suspended crit).view sched
    let k₁ := (k.prepare t .suspended crit).setState t .suspended
    obtain ⟨m, heq, hm⟩ := insert_eq (k := k₁) hs.holds hun
    have hmem : t ∈ (((v.setState t .suspended).insert t).sched (k₁.core t)).toList := by
      rw [Kernel.insert_sched]
      exact (if_pos rfl).symm ▸ SchedulingList.insert_perm.mem_iff.mpr List.mem_cons_self
    obtain ⟨m', heq', hm'⟩ := remove_eq (k := k₁.setLists m) hm hmem
    -- the lists are as before
    have hback : ((v.setState t .suspended).insert t).remove t = v.setState t .suspended :=
      hs.queued.insert_remove hns hcore
    have hholds : m'.Holds sched queue := by
      have hm'' : m'.Holds (((v.setState t .suspended).insert t).remove t).sched queue := hm'
      rw [hback] at hm''
      exact hm''
    have hns' : ¬(v.setState t .suspended).Schedulable t := by
      unfold Kernel.Schedulable
      simp [Kernel.setState_state]
    have hold (u : Tid) (hu : u ≠ t) :
        (v.setState t .suspended).state u = v.state u ∧ (v.setState t .suspended).core u = v.core u :=
      ⟨(Kernel.setState_state v t .suspended u).trans (if_neg hu), rfl⟩
    have hcons : (k₁.setLists m').Consistent sched queue :=
      ⟨⟨hholds, hs.queued.change rfl rfl rfl hns hns' hcore hold⟩, h.waits.create ht (by simp) m'⟩
    refine ⟨k₁.setLists m', sched, queue, ?_, hcons, fun hP => ?_⟩
    · have hins : ((k.prepare t .suspended crit).setState t .suspended).insert t =
          some (k₁.setLists m) := heq
      simp only [hins, Option.bind_eq_bind, Option.bind_some, ne_eq, reduceCtorEq,
        not_false_eq_true, and_self, if_true, heq', false_and, if_false]
      rfl
    · exact (hp hP).change rfl rfl rfl hns hns' hcore hold

/-! ## Ranks and electors -/

/-- A rank may change in place. -/
theorem Consistent.setRank {prio : Int} (h : k.Consistent sched queue) :
    (k.setRank u prio).Consistent sched queue :=
  ⟨⟨h.holds, h.queued.congr rfl rfl rfl⟩, h.waits.congr rfl rfl rfl (fun _ => Iff.rfl)
    fun v x hx => ⟨hx, h.waits.joined v x hx⟩⟩

/-- An election keeps the lists consistent. -/
theorem Consistent.elect {eligible : Tid → Bool} (h : k.Consistent sched queue) :
    (k.elect eligible).Consistent sched queue :=
  ⟨⟨h.holds, h.queued⟩, h.waits.congr rfl rfl rfl (fun _ => Iff.rfl)
    fun v x hx => ⟨hx, h.waits.joined v x hx⟩⟩

end LinkedKernel

end Epos
