import Epos.ForStd.TransitionSystem
import Epos.Spec.Placement

/-!
# The kernel stays well formed

`WellFormed` adds to the placement of the threads that a queued thread sleeps in
the `p()` it is queued for and a joining one in its `join()`. Every operation,
called as `Kernel.CanAct` says, keeps it; the later files build on the lemmas
about single moves and never unfold an operation for its bookkeeping again.
-/

namespace Epos

namespace Kernel

variable {k k' k'' : Kernel} {c : Nat} {s : Sid} {t u prev next : Tid} {st : State}

/-! ## Threads that do not compete -/

/-- Threads only move between running and ready. -/
def Settles (k k' : Kernel) : Prop :=
  ∀ u, (k'.Schedulable u ↔ k.Schedulable u) ∧ (¬k.Schedulable u → k'.state u = k.state u)

theorem Settles.refl (k : Kernel) : Settles k k := fun _ => ⟨Iff.rfl, fun _ => rfl⟩

theorem Settles.trans (h : Settles k k') (h' : Settles k' k'') : Settles k k'' := fun u =>
  ⟨(h' u).1.trans (h u).1, fun hu => ((h' u).2 (mt (h u).1.mp hu)).trans ((h u).2 hu)⟩

/-- `dispatch()` only moves threads between running and ready. -/
theorem Queued.settles_dispatch (h : k.Queued) : Settles k (k.dispatch c prev) :=
  fun _ => ⟨h.dispatch_schedulable, h.dispatch_state_of_not⟩

/-- `reschedule()` only moves threads between running and ready. -/
theorem Placed.settles_reschedule (h : k.Placed) : Settles k (k.reschedule c) := by
  unfold Kernel.reschedule
  split
  · exact .refl k
  · rename_i prev hr
    have hsw := (h.switching hr).setSched
      (f := fun l => l.choose k.priority (k.eligible c)) SchedulingList.choose_perm
      (SchedulingList.choose_isSome (h.isSome c (h.lt_of_running hr)))
    exact hsw.settles_dispatch

/-- A preemption only moves threads between running and ready. -/
theorem Placed.settles_preempt (h : k.Placed) {cpu : Nat} : Settles k (k.preempt c cpu) := by
  unfold Kernel.preempt
  split
  · exact h.settles_reschedule
  · exact .refl k

/-- `yield()` only moves threads between running and ready. -/
theorem Placed.settles_yield (h : k.Placed) (hr : k.running (k.core t) = some t) :
    Settles k (k.yield t) := by
  have hsw := (h.switching hr).setSched
    (f := fun l => l.chooseAnother k.priority (k.eligible (k.core t)))
    SchedulingList.chooseAnother_perm
    (SchedulingList.chooseAnother_isSome (h.isSome _ (h.lt_of_running hr)))
  exact hsw.settles_dispatch

/-- `t` has stopped competing in the state `st`, and only `t` has. -/
theorem Queued.leave_state (h : k.Queued) (ht : k.Schedulable t)
    (hidle : t ≠ k.idle (k.core t)) (hst : st ≠ .running ∧ st ≠ .ready) :
    (((k.setState t st).remove t).dispatch c prev).state t = some st ∧
      ∀ u, u ≠ t →
        ((((k.setState t st).remove t).dispatch c prev).Schedulable u ↔ k.Schedulable u) ∧
        (¬k.Schedulable u →
          (((k.setState t st).remove t).dispatch c prev).state u = k.state u) := by
  have hq := h.remove ht hidle hst
  have hstate := setState_state k t st
  have hns : ¬((k.setState t st).remove t).Schedulable t := by
    rw [setState_remove_schedulable hst]
    exact fun ht => ht.1 rfl
  constructor
  · refine (hq.dispatch_state_of_not hns).trans ?_
    show (k.setState t st).state t = some st
    rw [hstate, if_pos rfl]
  · intro u hu
    have hu' : ((k.setState t st).remove t).Schedulable u ↔ k.Schedulable u := by
      rw [setState_remove_schedulable hst]
      exact and_iff_right hu
    refine ⟨hq.dispatch_schedulable.trans hu', fun hns' => ?_⟩
    refine (hq.dispatch_state_of_not (mt hu'.mp hns')).trans ?_
    show (k.setState t st).state u = k.state u
    rw [hstate, if_neg hu]

/-- The thread that leaves has its new state; the others settle. -/
theorem Placed.leave_state (h : k.Placed) (hr : k.running (k.core t) = some t)
    (hidle : t ≠ k.idle (k.core t)) (hst : st ≠ .running ∧ st ≠ .ready) :
    (k.leave t st).state t = some st ∧
      ∀ u, u ≠ t → ((k.leave t st).Schedulable u ↔ k.Schedulable u) ∧
        (¬k.Schedulable u → (k.leave t st).state u = k.state u) :=
  h.toQueued.leave_state (.inl (h.state_of_running hr).1) hidle hst

/-! ## Waiting threads -/

/-- A thread in a queue sleeps in its `p()`, and one that joins in its `join()`. -/
structure Waits (k : Kernel) : Prop where
  queued : ∀ s, ∀ t ∈ (k.sem s).queue, k.state t = some .waiting ∧ k.call t = some (.p s)
  queue_nodup : ∀ s, (k.sem s).queue.Nodup
  joined : ∀ u t, k.joining u = some t → k.state t = some .suspended ∧ k.call t = some (.join u)

structure WellFormed (k : Kernel) : Prop extends Placed k, Waits k

/-- A queued thread does not compete. -/
theorem Waits.not_schedulable (h : k.Waits) (ht : t ∈ (k.sem s).queue) : ¬k.Schedulable t := by
  simp [Schedulable, (h.queued s t ht).1]

/-- Queues may lose threads, and threads that neither wait nor are suspended may
    change. -/
theorem Waits.congr (h : k.Waits) (hq : ∀ s, (k'.sem s).queue.Sublist (k.sem s).queue)
    (hst : ∀ s, ∀ t ∈ (k'.sem s).queue, k'.state t = k.state t ∧ k'.call t = k.call t)
    (hj : ∀ u t, k'.joining u = some t →
      k.joining u = some t ∧ k'.state t = k.state t ∧ k'.call t = k.call t) : k'.Waits where
  queued s t ht := by
    rw [(hst s t ht).1, (hst s t ht).2]
    exact h.queued s t ((hq s).subset ht)
  queue_nodup s := (hq s).nodup (h.queue_nodup s)
  joined u t ht := by
    obtain ⟨hjoin, hstate, hcall⟩ := hj u t ht
    rw [hstate, hcall]
    exact h.joined u t hjoin

/-- Scheduling moves leave the waiting threads alone. -/
theorem Waits.settle (h : k.Waits) (hf : Frame k k') (hs : Settles k k') : k'.Waits := by
  refine h.congr (fun s => by rw [hf.toSync]) (fun s t ht => ?_) fun u t ht => ?_
  · rw [hf.toSync] at ht
    exact ⟨(hs t).2 (h.not_schedulable ht), by rw [hf.call]⟩
  · rw [hf.joining] at ht
    refine ⟨ht, (hs t).2 ?_, by rw [hf.call]⟩
    simp [Schedulable, (h.joined u t ht).1]

/-- `reschedule()` keeps the kernel well formed. -/
theorem WellFormed.reschedule (h : k.WellFormed) : (k.reschedule c).WellFormed :=
  ⟨h.toPlaced.reschedule, h.toWaits.settle (frame_reschedule k c) h.settles_reschedule⟩

/-- A preemption keeps the kernel well formed. -/
theorem WellFormed.preempt (h : k.WellFormed) {cpu : Nat} : (k.preempt c cpu).WellFormed :=
  ⟨h.toPlaced.preempt, h.toWaits.settle (frame_preempt k c cpu) h.settles_preempt⟩

/-- `yield()` keeps the kernel well formed. -/
theorem WellFormed.yield (h : k.WellFormed) (hr : k.running (k.core t) = some t) :
    (k.yield t).WellFormed :=
  ⟨h.toPlaced.yield hr, h.toWaits.settle (frame_yield k t) (h.settles_yield hr)⟩

/-- A running thread is in no queue and joins nobody. -/
theorem WellFormed.not_waiting (h : k.WellFormed) (ht : k.Schedulable t) :
    (∀ s, t ∉ (k.sem s).queue) ∧ ∀ u, k.joining u ≠ some t := by
  constructor
  · exact fun s hq => h.toWaits.not_schedulable hq ht
  · intro u hj
    have hst := (h.joined u t hj).1
    rcases ht with ht | ht <;> rw [hst] at ht <;> cases ht

/-- A thread outside every queue and every `join()` becomes ready. -/
theorem WellFormed.insert (h : k.WellFormed) (ht : ¬k.Schedulable t) (hlt : k.core t < k.cores)
    (hq : ∀ s, t ∉ (k.sem s).queue) (hj : ∀ u, k.joining u ≠ some t) :
    ((k.setState t .ready).insert t).WellFormed := by
  refine ⟨h.toPlaced.insert ht hlt, h.toWaits.congr (fun s => .refl _) (fun s u hu => ?_) ?_⟩
  · have hut : u ≠ t := fun heq => hq s (heq ▸ hu)
    exact ⟨(setState_state k t .ready u).trans (if_neg hut), rfl⟩
  · intro x u hu
    have hut : u ≠ t := fun heq => hj x (heq ▸ hu)
    exact ⟨hu, (setState_state k t .ready u).trans (if_neg hut), rfl⟩

/-- A thread that is nowhere queued and joins nobody may enter its list. -/
theorem WellFormed.enter (h : k.WellFormed) (ht : ¬k.Schedulable t) (hlt : k.core t < k.cores)
    (hq : ∀ s, t ∉ (k.sem s).queue) (hj : ∀ u, k.joining u ≠ some t) :
    (k.enter c t).WellFormed :=
  (h.insert ht hlt hq hj).preempt

/-! ## Returning from a call -/

/-- Only a resource has an owner. -/
theorem owned_of_not_resource {p : Protocol} (h : ¬p.resource) : ¬p.owned := by
  cases p <;> simp_all [Protocol.resource, Protocol.owned]

/-- Only SRP and MSRP have ceilings to update. -/
theorem updateCeiling_eq_self (h : (k.sem s).protocol ≠ .srp) (h' : (k.sem s).protocol ≠ .msrp) :
    k.updateCeiling s = k := by
  unfold updateCeiling
  split
  · rename_i hp
    exact absurd hp h
  · rename_i hp
    exact absurd hp h'
  · rfl

/-- `update_ceiling()` changes ceilings only. -/
theorem updateCeiling_frame (k : Kernel) (s : Sid) : ∃ store ceil ceils, k.updateCeiling s =
    { k with store := store, srpCeiling := ceil, msrpCeiling := ceils } := by
  unfold updateCeiling
  split <;> exact ⟨_, _, _, rfl⟩

/-- `complete()` changes no state, no list, no queue and no trait. -/
theorem complete_eq (k : Kernel) (t : Tid) : ∃ store ceil ceils ins,
    k.complete t =
      { k with
        store := store
        srpCeiling := ceil
        msrpCeiling := ceils
        inside := ins
        call := Function.update k.call t none } := by
  unfold complete
  split
  · rename_i s _
    obtain ⟨store, ceil, ceils, heq⟩ := updateCeiling_frame (k.endCall t) s
    dsimp only
    rw [heq]
    split <;> exact ⟨_, _, _, _, rfl⟩
  · rename_i s _
    obtain ⟨store, ceil, ceils, heq⟩ := updateCeiling_frame (k.endCall t) s
    exact ⟨store, ceil, ceils, k.inside, heq⟩
  · exact ⟨_, _, _, _, rfl⟩
  · exact ⟨_, _, _, _, rfl⟩

/-- The calls of running threads do not matter. -/
theorem WellFormed.call (h : k.WellFormed) (ht : k.Schedulable t) (hsched : k'.sched = k.sched)
    (hstate : k'.state = k.state) (hsys : k'.toSystem = k.toSystem)
    (hjoin : k'.joining = k.joining) (hcall : ∀ u, u ≠ t → k'.call u = k.call u)
    (hq : ∀ s, (k'.sem s).queue.Sublist (k.sem s).queue) : k'.WellFormed := by
  obtain ⟨hnq, hnj⟩ := h.not_waiting ht
  refine ⟨h.toPlaced.congr hsched hstate hsys, h.toWaits.congr hq (fun s u hu => ?_) ?_⟩
  · have hut : u ≠ t := fun heq => hnq s (heq ▸ (hq s).subset hu)
    exact ⟨by rw [hstate], hcall u hut⟩
  · intro x u hu
    rw [hjoin] at hu
    have hut : u ≠ t := fun heq => hnj x (heq ▸ hu)
    exact ⟨hu, by rw [hstate], hcall u hut⟩

/-- The end of a call keeps the kernel well formed. -/
theorem WellFormed.complete (h : k.WellFormed) (ht : k.Schedulable t) :
    (k.complete t).WellFormed := by
  obtain ⟨store, ceil, ceils, ins, heq⟩ := complete_eq k t
  rw [heq]
  exact h.call ht rfl rfl rfl rfl (fun u hu => Function.update_of_ne hu _ _) fun s => .refl _

/-! ## `p()` and `v()` -/

/-- What `sleep()` and `join()` do to the threads that do not run. -/
theorem WellFormed.leave_old (h : k.WellFormed) (hr : k.running (k.core t) = some t)
    (hidle : t ≠ k.idle (k.core t)) (hst : st ≠ .running ∧ st ≠ .ready)
    (hsched : k'.sched = k.sched) (hstate : k'.state = k.state)
    (hsys : k'.toSystem = k.toSystem) (hcall : ∀ x, x ≠ t → k'.call x = k.call x) :
    (k'.leave t st).Placed ∧ (k'.leave t st).state t = some st ∧
      ∀ x, x ≠ t → ¬k.Schedulable x →
        (k'.leave t st).state x = k.state x ∧ (k'.leave t st).call x = k.call x := by
  have hp : k'.Placed := h.toPlaced.congr hsched hstate hsys
  have hr' : k'.running (k'.core t) = some t := by
    rw [running, hsched, hsys]
    exact hr
  have hidle' : t ≠ k'.idle (k'.core t) := by rwa [hsys]
  obtain ⟨hself, hothers⟩ := hp.leave_state hr' hidle' hst
  refine ⟨hp.leave hr' hidle' hst, hself, fun x hx hns => ⟨?_, ?_⟩⟩
  · rw [(hothers x hx).2 (by rwa [Schedulable, hstate]), hstate]
  · rw [(frame_leave k' t st).call]
    exact hcall x hx

/-- `t` goes to sleep in the queue of `s`. -/
theorem WellFormed.asleep (h : k.WellFormed) (hr : k.running (k.core t) = some t)
    (hidle : t ≠ k.idle (k.core t)) (hsched : k'.sched = k.sched) (hstate : k'.state = k.state)
    (hsys : k'.toSystem = k.toSystem) (hjoin : k'.joining = k.joining)
    (hcall : k'.call = Function.update k.call t (some (.p s)))
    (hsem : ∀ s', (k'.sem s').queue.Perm
      (if s' = s then t :: (k.sem s').queue else (k.sem s').queue)) :
    (k'.leave t .waiting).WellFormed := by
  obtain ⟨hnq, hnj⟩ := h.not_waiting (.inl (h.state_of_running hr).1)
  have hcalls (x : Tid) (hx : x ≠ t) : k'.call x = k.call x := by
    rw [hcall]
    exact Function.update_of_ne hx _ _
  -- `t` leaves its core, and nobody who waits is touched
  obtain ⟨hp, hself, hold⟩ := h.leave_old hr hidle
    (show State.waiting ≠ .running ∧ State.waiting ≠ .ready by simp) hsched hstate hsys hcalls
  have hframe := frame_leave k' t .waiting
  rw [← hframe.toSync] at hsem
  refine ⟨hp, ?_, fun s' => ?_, fun x u hu => ?_⟩
  · intro s' u hu
    rw [(hsem s').mem_iff] at hu
    by_cases hut : u = t
    · subst hut
      have hs : s' = s := by
        by_contra hs
        rw [if_neg hs] at hu
        exact hnq s' hu
      rw [hself, hframe.call, hs, hcall]
      exact ⟨rfl, Function.update_self _ _ _⟩
    · have hu' : u ∈ (k.sem s').queue := by
        split at hu
        · exact (List.mem_cons.mp hu).resolve_left hut
        · exact hu
      obtain ⟨hst, hcall⟩ := hold u hut (h.toWaits.not_schedulable hu')
      rw [hst, hcall]
      exact h.queued s' u hu'
  · rw [(hsem s').nodup_iff]
    split
    · exact List.nodup_cons.mpr ⟨hnq s', h.queue_nodup s'⟩
    · exact h.queue_nodup s'
  · rw [hframe.joining, hjoin] at hu
    have hut : u ≠ t := fun heq => hnj x (heq ▸ hu)
    have hj := h.joined x u hu
    obtain ⟨hst, hcall⟩ := hold u hut (by simp [Schedulable, hj.1])
    rw [hst, hcall]
    exact hj

/-- `p()` keeps the kernel well formed. -/
theorem WellFormed.p (h : k.WellFormed) (hr : k.running (k.core t) = some t)
    (hidle : t ≠ k.idle (k.core t)) : (k.p t s).WellFormed := by
  have hqueue := Sync.p_queue k.toSync s t
  unfold Kernel.p
  split
  · rename_i hsleeps
    refine h.asleep hr hidle (show (k.callP t s).sched = k.sched from rfl) rfl rfl rfl rfl
      fun s' => ?_
    show ((k.toSync.p s t).1.sem s').queue.Perm _
    rw [hqueue, hsleeps]
    by_cases hs : s' = s
    · subst hs
      simp only [and_self, if_true]
      split
      · exact List.perm_append_comm
      · exact List.perm_insertRank _ _ _
    · simp [hs]
  · rename_i hsleeps
    have hrun : k.Schedulable t := .inl (h.state_of_running hr).1
    refine WellFormed.complete ?_ hrun
    refine h.call hrun (show (k.callP t s).sched = k.sched from rfl) rfl rfl rfl
      (fun x hx => Function.update_of_ne hx _ _) fun s' => ?_
    show ((k.toSync.p s t).1.sem s').queue.Sublist _
    rw [hqueue, if_neg (by simp [hsleeps])]

/-- The thread `u` taken off a queue is nowhere until it becomes ready. -/
theorem WellFormed.dequeued (h : k.WellFormed) (hr : k.running c = some t) {k₁ : Kernel}
    (hq : (k.sem s).queue = u :: (k₁.sem s).queue)
    (hqs : ∀ s', s' ≠ s → (k₁.sem s').queue = (k.sem s').queue)
    (hsched : k₁.sched = k.sched) (hstate : k₁.state = k.state)
    (hsys : k₁.toSystem = k.toSystem) (hjoin : k₁.joining = k.joining)
    (hcall : ∀ x, x ≠ t → k₁.call x = k.call x) :
    k₁.WellFormed ∧ ¬k₁.Schedulable u ∧ k₁.core u < k₁.cores ∧
      (∀ s', u ∉ (k₁.sem s').queue) ∧ ∀ x, k₁.joining x ≠ some u := by
  have hmem : u ∈ (k.sem s).queue := by rw [hq]; exact List.mem_cons_self
  have hnd := h.queue_nodup s
  rw [hq, List.nodup_cons] at hnd
  -- only the queue of s changes, and it loses its head
  have hsub (s' : Sid) : (k₁.sem s').queue.Sublist (k.sem s').queue := by
    by_cases hs : s' = s
    · subst hs
      rw [hq]
      exact List.sublist_cons_self _ _
    · rw [hqs s' hs]
  refine ⟨h.call (.inl (h.state_of_running hr).1) hsched hstate hsys hjoin hcall hsub,
    ?_, ?_, fun s' hmem' => ?_, fun x hx => ?_⟩
  · rw [Schedulable, hstate]
    exact h.toWaits.not_schedulable hmem
  · -- u waited in the queue of s, so it is in no other and joins nobody
    rw [hsys]
    exact h.core_lt u (by simp [(h.queued s u hmem).1])
  · have hs : s' = s := by
      have := (h.queued s' u ((hsub s').subset hmem')).2
      rw [(h.queued s u hmem).2] at this
      simpa using this.symm
    subst hs
    exact hnd.1 hmem'
  · rw [hjoin] at hx
    have := (h.joined x u hx).1
    rw [(h.queued s u hmem).1] at this
    cases this

/-- `dequeued` for the thread that a `v()` wakes up. -/
theorem WellFormed.woken (h : k.WellFormed) (hr : k.running c = some t) {k₁ : Kernel}
    (hsync : k₁.toSync = (k.toSync.v s t).1) (hwoken : (k.toSync.v s t).2 = some u)
    (hsched : k₁.sched = k.sched) (hstate : k₁.state = k.state)
    (hsys : k₁.toSystem = k.toSystem) (hjoin : k₁.joining = k.joining)
    (hcall : ∀ x, x ≠ t → k₁.call x = k.call x) :
    k₁.WellFormed ∧ ¬k₁.Schedulable u ∧ k₁.core u < k₁.cores ∧
      (∀ s', u ∉ (k₁.sem s').queue) ∧ ∀ x, k₁.joining x ≠ some u := by
  obtain ⟨hqs, hq⟩ := Sync.v_queue k.toSync s t
  rw [hwoken] at hq
  rw [← hsync] at hq hqs
  exact h.dequeued hr hq (fun s' hs => by rw [hqs s' hs]) hsched hstate hsys hjoin hcall

/-- A `v()` that wakes nobody up leaves the queues alone. -/
theorem v_queue_of_none (hw : (k.toSync.v s t).2 = none) (s' : Sid) :
    ((k.toSync.v s t).1.sem s').queue.Sublist (k.sem s').queue := by
  obtain ⟨hqs, hq⟩ := Sync.v_queue k.toSync s t
  rw [hw] at hq
  by_cases hs : s' = s
  · subst hs
    rw [hq]
    exact .refl _
  · rw [hqs s' hs]

/-- `v()` keeps the kernel well formed. -/
theorem WellFormed.v (h : k.WellFormed) (hr : k.running (k.core t) = some t) :
    (k.v t s).WellFormed := by
  have hrun : k.Schedulable t := .inl (h.state_of_running hr).1
  have hcalls (x : Tid) (hx : x ≠ t) : (k.callV t s).call x = k.call x :=
    Function.update_of_ne hx _ _
  unfold Kernel.v
  split
  · rename_i hwoken
    refine WellFormed.complete ?_ hrun
    exact h.call hrun (show (k.callV t s).sched = k.sched from rfl) rfl rfl rfl hcalls (v_queue_of_none hwoken)
  · rename_i u hwoken
    obtain ⟨hwf, hns, hlt, hq, hj⟩ :=
      h.woken hr (show (k.callV t s).toSync = _ from rfl) hwoken rfl rfl rfl rfl hcalls
    replace hwf := hwf.enter (c := k.core t) hns hlt hq hj
    dsimp only
    split
    · rename_i hr'
      exact hwf.complete (.inl (hwf.state_of_running hr').1)
    · exact hwf

/-- A handler that calls `v()` keeps the kernel well formed. -/
theorem WellFormed.handler (h : k.WellFormed) : (k.handler c s).WellFormed := by
  unfold Kernel.handler
  split
  · exact h
  · rename_i t hr
    split
    · rename_i hwoken
      exact h.call (.inl (h.state_of_running hr).1)
        (show (k.interruptV t s).sched = k.sched from rfl) rfl rfl rfl
        (fun _ _ => rfl) (v_queue_of_none hwoken)
    · rename_i u hwoken
      obtain ⟨hwf, hns, hlt, hq, hj⟩ :=
        h.woken hr (show (k.interruptV t s).toSync = _ from rfl) hwoken rfl rfl rfl rfl fun _ _ => rfl
      exact hwf.enter hns hlt hq hj

/-! ## Thread operations -/

/-- A thread that has not been constructed is nowhere. -/
theorem WellFormed.unborn (h : k.WellFormed) (ht : k.state t = none) :
    ¬k.Schedulable t ∧ (∀ s, t ∉ (k.sem s).queue) ∧ ∀ u, k.joining u ≠ some t := by
  refine ⟨by simp [Schedulable, ht], fun s hq => ?_, fun u hj => ?_⟩
  · have := (h.queued s t hq).1
    rw [ht] at this
    cases this
  · have := (h.joined u t hj).1
    rw [ht] at this
    cases this

/-- A thread that is constructed suspended is inserted and taken out again. -/
theorem create_suspended (h : k.Placed) (ht : ¬k.Schedulable t) (hlt : k.core t < k.cores) :
    k.create c t .suspended = k.setState t .suspended := by
  unfold create
  simp only [ne_eq, reduceCtorEq, not_false_eq_true, and_self, if_true, false_and, if_false]
  exact h.toQueued.insert_remove ht hlt

/-- A new thread may begin outside of the lists. -/
theorem WellFormed.setState (h : k.WellFormed) (ht : k.state t = none)
    (hst : st ≠ .running ∧ st ≠ .ready) (hlt : k.core t < k.cores) :
    (k.setState t st).WellFormed := by
  obtain ⟨hns, -, -⟩ := h.unborn ht
  have hstate := setState_state k t st
  have hns' : ¬(k.setState t st).Schedulable t := by
    unfold Schedulable
    simp [hstate, hst]
  have hold (u : Tid) (hu : k.state u ≠ none) : (k.setState t st).state u = k.state u := by
    rw [hstate, if_neg]
    rintro rfl
    exact hu ht
  constructor
  case toPlaced =>
    refine h.toPlaced.change rfl rfl rfl hns hns' hlt fun u hu => ?_
    rw [hstate, if_neg hu]
    exact ⟨rfl, rfl⟩
  case toWaits =>
    refine h.toWaits.congr (fun s => .refl _) (fun s u hu => ⟨hold u ?_, rfl⟩)
      fun x u hu => ⟨hu, hold u ?_, rfl⟩
    · simp [(h.queued s u hu).1]
    · simp [(h.joined x u hu).1]

/-- The constructor of a thread keeps the kernel well formed. -/
theorem WellFormed.create (h : k.WellFormed) (ht : k.state t = none) (hlt : k.core t < k.cores)
    (hst : st = .ready ∨ st = .suspended) : (k.create c t st).WellFormed := by
  obtain ⟨hns, hq, hj⟩ := h.unborn ht
  rcases hst with rfl | rfl
  · have hin := h.insert hns hlt hq hj
    unfold Kernel.create
    simp only [ne_eq, not_true_eq_false, reduceCtorEq, false_and, if_false]
    split
    · exact hin.preempt
    · exact hin
  · rw [create_suspended h.toPlaced hns hlt]
    exact h.setState ht (by simp) hlt

/-- A thread that leaves its core waits or joins only where the caller says so. -/
theorem WellFormed.leave (h : k.WellFormed) (hr : k.running (k.core t) = some t)
    (hidle : t ≠ k.idle (k.core t)) (hst : st ≠ .running ∧ st ≠ .ready) :
    (k.leave t st).WellFormed := by
  obtain ⟨hnq, hnj⟩ := h.not_waiting (.inl (h.state_of_running hr).1)
  obtain ⟨-, hothers⟩ := h.leave_state hr hidle hst
  have hframe := frame_leave k t st
  refine ⟨h.toPlaced.leave hr hidle hst, h.toWaits.congr ?_ (fun s u hu => ?_) fun x u hu => ?_⟩
  · exact fun s => by rw [hframe.toSync]
  · rw [hframe.toSync] at hu
    have hut : u ≠ t := fun heq => hnq s (heq ▸ hu)
    exact ⟨(hothers u hut).2 (h.toWaits.not_schedulable hu), by rw [hframe.call]⟩
  · rw [hframe.joining] at hu
    have hut : u ≠ t := fun heq => hnj x (heq ▸ hu)
    have hns : ¬k.Schedulable u := by simp [Schedulable, (h.joined x u hu).1]
    exact ⟨hu, (hothers u hut).2 hns, by rw [hframe.call]⟩

/-- `join()` keeps the kernel well formed. -/
theorem WellFormed.join (h : k.WellFormed) (hr : k.running (k.core t) = some t)
    (hidle : t ≠ k.idle (k.core t)) (hu : k.joining u = none) : (k.join t u).WellFormed := by
  obtain ⟨hnq, hnj⟩ := h.not_waiting (.inl (h.state_of_running hr).1)
  unfold Kernel.join
  split
  · exact h
  · obtain ⟨hp, hself, hold⟩ := h.leave_old hr hidle
      (show State.suspended ≠ .running ∧ State.suspended ≠ .ready by simp)
      -- t is joined to u before it leaves, and no ready list changes by that
      (show (k.callJoin t u).sched = k.sched from rfl) rfl rfl fun x hx => Function.update_of_ne hx _ _
    have hframe := frame_leave (k.callJoin t u) t .suspended
    refine ⟨hp, fun s x hx => ?_, fun s => ?_, fun y x hx => ?_⟩
    · rw [hframe.toSync] at hx
      obtain ⟨hst, hcall⟩ :=
        hold x (fun heq => hnq s (heq ▸ hx)) (h.toWaits.not_schedulable hx)
      rw [hst, hcall]
      exact h.queued s x hx
    · rw [hframe.toSync]
      exact h.queue_nodup s
    · -- either u is joined by t now, or the pair was there before
      rw [hframe.joining] at hx
      change Function.update k.joining u (some t) y = some x at hx
      by_cases hyu : y = u
      · subst hyu
        obtain rfl : t = x := by simpa using hx
        rw [hself, hframe.call]
        exact ⟨rfl, Function.update_self _ _ _⟩
      · rw [Function.update_of_ne hyu] at hx
        have hj := h.joined y x hx
        obtain ⟨hst, hcall⟩ :=
          hold x (fun heq => hnj y (heq ▸ hx)) (by simp [Schedulable, hj.1])
        rw [hst, hcall]
        exact hj

/-- `suspend()` keeps the kernel well formed. -/
theorem WellFormed.suspend (h : k.WellFormed) (hr : k.running (k.core t) = some t)
    (hidle : u ≠ k.idle (k.core u)) (hu : u = t ∨ k.state u = some .ready) :
    (k.suspend t u).WellFormed := by
  rcases hu with rfl | hu
  · exact h.leave hr hidle (by simp)
  · have hp : ((k.setState u .suspended).remove u).Placed :=
      h.toPlaced.remove_ready hu hidle (by simp)
    obtain ⟨hnq, hnj⟩ := h.not_waiting (t := u) (.inr hu)
    have hut : t ≠ u := by
      rintro rfl
      rw [(h.state_of_running hr).1] at hu
      cases hu
    have hrun : ((k.setState u .suspended).remove u).running (k.core t) = some t := by
      refine (hp.running_iff _ t).mpr ⟨?_, rfl⟩
      exact ((setState_state k u .suspended t).trans (if_neg hut)).trans
        (h.state_of_running hr).1
    unfold Kernel.suspend
    rw [dispatch_self hrun]
    refine ⟨hp, h.toWaits.congr (fun s => .refl _) (fun s x hx => ?_) fun y x hx => ?_⟩
    · have hxu : x ≠ u := fun heq => hnq s (heq ▸ hx)
      exact ⟨(setState_state k u .suspended x).trans (if_neg hxu), rfl⟩
    · have hxu : x ≠ u := fun heq => hnj y (heq ▸ hx)
      exact ⟨hx, (setState_state k u .suspended x).trans (if_neg hxu), rfl⟩

/-- `resume()` keeps the kernel well formed. -/
theorem WellFormed.resume (h : k.WellFormed) (hu : ∀ x, k.joining x ≠ some u) :
    (k.resume c u).WellFormed := by
  unfold Kernel.resume
  split
  · rename_i hst
    refine h.enter (by simp [Schedulable, hst]) (h.core_lt u (by simp [hst])) (fun s hq => ?_) hu
    have := (h.queued s u hq).1
    rw [hst] at this
    cases this
  · exact h

/-- The thread that joined the exiting one becomes ready. -/
theorem Switching.resumeJoiner (h : k.Switching c t) (hw : k.Waits)
    (hlt : ∀ j, k.joining t = some j → k.core j < k.cores) (hnj : k.joining t ≠ some t) :
    (k.resumeJoiner t).Switching c t ∧ (k.resumeJoiner t).Waits := by
  unfold Kernel.resumeJoiner
  split
  · exact ⟨h, hw⟩
  · rename_i j hj
    -- the joiner is suspended in join(), so it is in no list and in no queue
    obtain ⟨hjst, hjcall⟩ := hw.joined t j hj
    have hjt : j ≠ t := fun heq => hnj (heq ▸ hj)
    have hsw := h.insert (t := j) (by simp [Schedulable, hjst]) (hlt j hj) hjt
    have hstate (x : Tid) (hx : x ≠ j) :
        ((k.setState j .ready).insert j).state x = k.state x :=
      (setState_state k j .ready x).trans (if_neg hx)
    constructor
    · exact ⟨⟨hsw.mem_iff, hsw.nodup, hsw.isSome, hsw.idle, hsw.core_lt⟩,
        hsw.elsewhere, hsw.here, hsw.prev_state, hsw.prev_core, hsw.lt⟩
    · refine hw.congr (fun s => .refl _) (fun s x hx => ⟨hstate x ?_, rfl⟩) fun y x hx => ?_
      · rintro rfl
        have := (hw.queued s x hx).1
        rw [hjst] at this
        cases this
      · change Function.update k.joining t none y = some x at hx
        have hyt : y ≠ t := by
          rintro rfl
          simp at hx
        rw [Function.update_of_ne hyt] at hx
        refine ⟨hx, hstate x ?_, rfl⟩
        rintro rfl
        have := (hw.joined y x hx).2
        rw [hjcall, Option.some.injEq, Call.join.injEq] at this
        exact hyt this.symm

/-- `exit()` before its last `choose()`: the caller is off its core and the thread
    that joined it is ready. -/
theorem WellFormed.exit_switching (h : k.WellFormed) (hr : k.running (k.core t) = some t)
    (hidle : t ≠ k.idle (k.core t)) :
    (((k.setState t .finishing).remove t).resumeJoiner t).Switching (k.core t) t ∧
      (((k.setState t .finishing).remove t).resumeJoiner t).Waits := by
  obtain ⟨hnq, hnj⟩ := h.not_waiting (.inl (h.state_of_running hr).1)
  have hfin (x : Tid) (hx : x ≠ t) :
      ((k.setState t .finishing).remove t).state x = k.state x :=
    (setState_state k t .finishing x).trans (if_neg hx)
  have hw : ((k.setState t .finishing).remove t).Waits := by
    refine h.toWaits.congr (fun s => .refl _) (fun s x hx => ⟨hfin x ?_, rfl⟩)
      fun y x hx => ⟨hx, hfin x ?_, rfl⟩
    · exact fun heq => hnq s (heq ▸ hx)
    · exact fun heq => hnj y (heq ▸ hx)
  exact (h.remove_running hr hidle (by simp)).resumeJoiner hw
    (fun j hj => h.core_lt j (by simp [(h.joined t j hj).1])) (hnj t)

/-- `exit()` keeps the kernel well formed. -/
theorem WellFormed.exit (h : k.WellFormed) (hr : k.running (k.core t) = some t)
    (hidle : t ≠ k.idle (k.core t)) : (k.exit t).WellFormed := by
  obtain ⟨hsw, hw⟩ := h.exit_switching hr hidle
  have hch := hsw.setSched
    (f := fun l => l.choose (((k.setState t .finishing).remove t).resumeJoiner t).priority
      ((((k.setState t .finishing).remove t).resumeJoiner t).eligible (k.core t)))
    SchedulingList.choose_perm (SchedulingList.choose_isSome (hsw.isSome _ hsw.lt))
  exact ⟨hch.placed_dispatch, hw.settle
    ((frame_setSched _ _ _).trans (frame_dispatch _ _ _)) hch.settles_dispatch⟩

/-- A rank may change in place. -/
theorem WellFormed.setRank (h : k.WellFormed) {prio : Int} : (k.setRank u prio).WellFormed :=
  ⟨h.toPlaced.congr rfl rfl rfl, h.toWaits.congr (fun _ => .refl _)
    (fun _ _ _ => ⟨rfl, rfl⟩) fun _ _ hx => ⟨hx, rfl, rfl⟩⟩

/-- A ready thread changes its priority outside the list. -/
theorem WellFormed.reorder (h : k.WellFormed) (hu : k.Schedulable u) {prio : Int} :
    (k.reorder u prio).WellFormed := by
  unfold Kernel.reorder
  split
  · rename_i hnr
    -- remove() and insert() touch the same list, so they are one change of it
    have hre : ((k.remove u).setRank u prio).insert u =
        (k.setRank u prio).setSched (k.core u) fun l =>
          (l.remove u).insert (k.setRank u prio).priority u := by
      unfold Kernel.insert Kernel.remove Kernel.setSched Kernel.setRank
      simp
    have hcore : k.core u < k.cores := h.core_lt u (by rcases hu with hu | hu <;> simp [hu])
    obtain ⟨prev, hr⟩ := Option.isSome_iff_exists.mp (h.isSome _ hcore)
    -- u does not run, so the thread that runs on its core stays chosen
    have hnot : (k.sched (k.core u)).chosen ≠ some u := fun hch =>
      hnr (h.state_of_running hch).1
    have hmem : u ∈ (k.sched (k.core u)).toList := (h.mem_iff _ u).mpr ⟨hu, rfl⟩
    have hrem : ((k.sched (k.core u)).remove u).chosen = some prev := by
      rw [SchedulingList.remove_listed hnot]
      exact hr
    have hch (rank : Tid → Int) :
        (((k.sched (k.core u)).remove u).insert rank u).chosen = some prev := by
      rw [SchedulingList.insert_chosen hrem]
    have hwf : (k.setRank u prio).WellFormed := h.setRank
    rw [hre]
    have hsw := (hwf.switching (c := k.core u) hr).setSched
      (f := fun l => (l.remove u).insert (k.setRank u prio).priority u) ?_ ?_
    · refine ⟨hsw.placed ?_, hwf.toWaits.settle (frame_setSched _ _ _) fun _ => ⟨Iff.rfl, fun _ => rfl⟩⟩
      rw [running, setSched_sched, if_pos rfl]
      exact hch _
    · refine SchedulingList.insert_perm.trans ?_
      rw [SchedulingList.remove_toList]
      exact (List.perm_cons_erase hmem).symm
    · exact Option.isSome_iff_exists.mpr ⟨prev, hch _⟩
  · exact h.setRank

/-- `priority()` keeps the kernel well formed. -/
theorem WellFormed.setCriterion (h : k.WellFormed) (hu : k.Schedulable u) {prio : Int} :
    (k.setCriterion c u prio).WellFormed := by
  unfold Kernel.setCriterion
  dsimp only
  split
  · exact (h.reorder hu).preempt
  · exact h.reorder hu

/-- `update()` of a criterion keeps the kernel well formed. -/
theorem WellFormed.update (h : k.WellFormed) {elapsed : Int} : (k.update u elapsed).WellFormed := by
  unfold Kernel.update
  split
  · exact h.setRank
  · exact h

/-- Every operation keeps the kernel well formed. -/
theorem WellFormed.step (h : k.WellFormed) {a : Action} (ha : k.CanAct a) :
    (k.step a).WellFormed := by
  cases a with
  | p t s => exact h.p ha.1.1 ha.2
  | v t s => exact h.v ha.1
  | ret t => exact h.complete (.inl (h.state_of_running ha.1).1)
  | create c t st => exact h.create ha.2.1 ha.2.2.1 ha.2.2.2
  | yield t => exact h.yield ha.1
  | exit t => exact h.exit ha.1.1 ha.2
  | join t u => exact h.join ha.1.1 ha.2.1 ha.2.2.2.1
  | suspend t u => exact h.suspend ha.1.1 ha.2.1 ha.2.2
  | resume c u =>
    refine h.resume fun x hx => ha.2 ?_
    rw [(h.joined x u hx).2]
    rfl
  | reschedule c => exact h.reschedule
  | handler c s => exact h.handler
  | priority c u prio => exact h.setCriterion ha.2
  | update u elapsed => exact h.update

/-! ## The traits of the system never change -/

/-! ## Threads that compete -/

/-- `x` gives its core up in the step: it sleeps, exits or is suspended. -/
def Leaves (k : Kernel) : Action → Tid → Prop
  | .p t s, x => x = t ∧ (k.toSync.p s t).2 = true
  | .exit t, x => x = t
  | .join t u, x => x = t ∧ k.state u ≠ some .finishing
  | .suspend _ u, x => x = u
  | _, _ => False

/-- The end of a call changes no state. -/
theorem complete_state (k : Kernel) (t : Tid) : (k.complete t).state = k.state := by
  obtain ⟨_, _, _, _, heq⟩ := complete_eq k t
  rw [heq]

/-- The end of a call changes nobody who runs. -/
theorem complete_running (k : Kernel) (t : Tid) : (k.complete t).running = k.running := by
  obtain ⟨_, _, _, _, heq⟩ := complete_eq k t
  rw [heq]
  rfl

/-- The end of a call ends it. -/
theorem complete_call (k : Kernel) (t : Tid) : (k.complete t).call t = none := by
  obtain ⟨_, _, _, _, heq⟩ := complete_eq k t
  rw [heq]
  exact Function.update_self _ _ _

/-- Who competes goes on while another thread enters. -/
theorem Placed.schedulable_enter (h : k.Placed) (ht : ¬k.Schedulable t)
    (hlt : k.core t < k.cores) (hu : k.Schedulable u) : (k.enter c t).Schedulable u := by
  refine ((h.insert ht hlt).settles_preempt u).1.mpr ?_
  exact (setState_ready_schedulable k t u).mpr (.inr hu)

/-- A running thread `t` that leaves takes nobody else with it. -/
theorem Placed.schedulable_leave (h : k.Placed) (hr : k.running (k.core t) = some t)
    (hidle : t ≠ k.idle (k.core t)) (hst : st ≠ .running ∧ st ≠ .ready) (hne : u ≠ t)
    (hu : k.Schedulable u) : (k.leave t st).Schedulable u :=
  ((h.leave_state hr hidle hst).2 u hne).1.mpr hu

/-- Who competes goes on during a `v()`. -/
theorem WellFormed.schedulable_v (h : k.WellFormed) (hr : k.running (k.core t) = some t)
    (hu : k.Schedulable u) : (k.v t s).Schedulable u := by
  unfold Kernel.v
  split
  · unfold Schedulable
    rw [complete_state]
    exact hu
  · rename_i n hw
    obtain ⟨hwf, hns, hlt, -, -⟩ :=
      h.woken hr (show (k.callV t s).toSync = _ from rfl) hw rfl rfl rfl rfl
        fun x hx => Function.update_of_ne hx _ _
    have henter : ((k.callV t s).enter (k.core t) n).Schedulable u :=
      hwf.toPlaced.schedulable_enter hns hlt hu
    dsimp only
    split
    · unfold Schedulable
      rw [complete_state]
      exact henter
    · exact henter

/-- Who competes goes on while another thread exits. -/
theorem WellFormed.schedulable_exit (h : k.WellFormed) (hr : k.running (k.core t) = some t)
    (hidle : t ≠ k.idle (k.core t)) (hne : u ≠ t) (hu : k.Schedulable u) :
    (k.exit t).Schedulable u := by
  obtain ⟨hsw, -⟩ := h.exit_switching hr hidle
  have hch := hsw.setSched
    (f := fun l => l.choose (((k.setState t .finishing).remove t).resumeJoiner t).priority
      ((((k.setState t .finishing).remove t).resumeJoiner t).eligible (k.core t)))
    SchedulingList.choose_perm (SchedulingList.choose_isSome (hsw.isSome _ hsw.lt))
  refine hch.dispatch_schedulable.mpr ?_
  have hrem : ((k.setState t .finishing).remove t).Schedulable u :=
    (setState_remove_schedulable (by simp)).mpr ⟨hne, hu⟩
  show (((k.setState t .finishing).remove t).resumeJoiner t).Schedulable u
  unfold resumeJoiner
  split
  · exact hrem
  · exact (setState_ready_schedulable _ _ u).mpr (.inr hrem)

/-- A thread competes for its core until it gives it up itself. -/
theorem WellFormed.schedulable_step (h : k.WellFormed) {a : Action} (ha : k.CanAct a)
    (hu : k.Schedulable u) (hl : ¬k.Leaves a u) : (k.step a).Schedulable u := by
  cases a with
  | p t s =>
    show (k.p t s).Schedulable u
    unfold Kernel.p
    split
    · -- only the thread that falls asleep stops competing
      rename_i hsleeps
      have hp : (k.callP t s).Placed := h.toPlaced.congr rfl rfl rfl
      exact hp.schedulable_leave ha.1.1 ha.2 (by simp) (fun heq => hl ⟨heq, hsleeps⟩) hu
    · unfold Schedulable
      rw [complete_state]
      exact hu
  | v t s => exact h.schedulable_v ha.1 hu
  | ret t =>
    show (k.complete t).Schedulable u
    unfold Schedulable
    rw [complete_state]
    exact hu
  | create c t st =>
    obtain ⟨-, ht, hlt, hst⟩ := ha
    obtain ⟨hns, -, -⟩ := h.unborn ht
    have hut : u ≠ t := fun heq => hns (heq ▸ hu)
    rcases hst with rfl | rfl
    · have hin : ((k.setState t .ready).insert t).Schedulable u :=
        (setState_ready_schedulable k t u).mpr (.inr hu)
      show (k.create c t .ready).Schedulable u
      unfold Kernel.create
      simp only [ne_eq, not_true_eq_false, reduceCtorEq, false_and, if_false]
      split
      · exact ((h.toPlaced.insert hns hlt).settles_preempt u).1.mpr hin
      · exact hin
    · show (k.create c t .suspended).Schedulable u
      rw [create_suspended h.toPlaced hns hlt]
      unfold Schedulable
      rw [setState_state, if_neg hut]
      exact hu
  | yield t => exact (h.settles_yield ha.1 u).1.mpr hu
  | exit t => exact h.schedulable_exit ha.1.1 ha.2 hl hu
  | join t x =>
    show (k.join t x).Schedulable u
    unfold Kernel.join
    split
    · exact hu
    · rename_i hfin
      have hp : (k.callJoin t x).Placed := h.toPlaced.congr rfl rfl rfl
      exact hp.schedulable_leave ha.1.1 ha.2.1 (by simp) (fun heq => hl ⟨heq, hfin⟩) hu
  | suspend t x =>
    obtain ⟨⟨hr, -⟩, hidle, hx⟩ := ha
    rcases hx with rfl | hx
    · exact h.toPlaced.schedulable_leave hr hidle (by simp) hl hu
    · have hp : ((k.setState x .suspended).remove x).Placed :=
        h.toPlaced.remove_ready hx hidle (by simp)
      have hsame : ((k.setState x .suspended).remove x).Schedulable u :=
        (setState_remove_schedulable (by simp)).mpr ⟨hl, hu⟩
      -- the suspended thread is ready, so the running one is another and stays
      have htx : t ≠ x := by
        rintro rfl
        rw [(h.state_of_running hr).1] at hx
        cases hx
      have hrun : ((k.setState x .suspended).remove x).running (k.core t) = some t := by
        refine (hp.running_iff _ t).mpr ⟨?_, rfl⟩
        show ((k.setState x .suspended)).state t = _
        rw [setState_state, if_neg htx]
        exact (h.state_of_running hr).1
      show (((k.setState x .suspended).remove x).dispatch (k.core t) t).Schedulable u
      rw [dispatch_self hrun]
      exact hsame
  | resume c x =>
    show (k.resume c x).Schedulable u
    unfold Kernel.resume
    split
    · rename_i hst
      exact h.toPlaced.schedulable_enter (by simp [Schedulable, hst])
        (h.core_lt x (by simp [hst])) hu
    · exact hu
  | reschedule c => exact (h.settles_reschedule u).1.mpr hu
  | handler c s =>
    show (k.handler c s).Schedulable u
    unfold Kernel.handler
    split
    · exact hu
    · rename_i t hr
      split
      · exact hu
      · rename_i n hw
        -- the woken thread joins the others, and none of them leaves
        obtain ⟨hwf, hns, hlt, -, -⟩ :=
          h.woken hr (show (k.interruptV t s).toSync = _ from rfl) hw rfl rfl rfl rfl
            fun _ _ => rfl
        exact hwf.toPlaced.schedulable_enter hns hlt hu
  | priority c x prio =>
    show (k.setCriterion c x prio).Schedulable u
    have hre : (k.reorder x prio).Schedulable u := by
      unfold Kernel.reorder
      split <;> exact hu
    unfold Kernel.setCriterion
    dsimp only
    split
    · exact ((h.reorder ha.2).toPlaced.settles_preempt u).1.mpr hre
    · exact hre
  | update x elapsed =>
    show (k.update x elapsed).Schedulable u
    unfold Kernel.update
    split <;> exact hu

/-! ## Data that never changes -/

/-- The end of a call leaves the configuration alone. -/
theorem complete_toSystem (k : Kernel) (t : Tid) : (k.complete t).toSystem = k.toSystem := by
  obtain ⟨_, _, _, _, heq⟩ := complete_eq k t
  rw [heq]

/-- No step changes the configuration. -/
theorem step_toSystem (k : Kernel) (a : Action) : (k.step a).toSystem = k.toSystem := by
  cases a with
  | p t s =>
    unfold step Kernel.p
    dsimp only
    split
    · exact (frame_leave _ _ _).toSystem
    · exact complete_toSystem _ _
  | v t s =>
    unfold step Kernel.v
    dsimp only
    split
    · exact complete_toSystem _ _
    · split
      · exact (complete_toSystem _ _).trans (frame_enter _ _ _).toSystem
      · exact (frame_enter _ _ _).toSystem
  | ret t => exact complete_toSystem k t
  | create c t st => exact (frame_create k c t st).toSystem
  | yield t => exact (frame_yield k t).toSystem
  | exit t => exact (frame_exit k t).toSystem
  | join t u =>
    unfold step Kernel.join
    dsimp only
    split
    · rfl
    · exact (frame_leave _ _ _).toSystem
  | suspend t u => exact (frame_suspend k t u).toSystem
  | resume c u => exact (frame_resume k c u).toSystem
  | reschedule c => exact (frame_reschedule k c).toSystem
  | handler c s =>
    unfold step Kernel.handler
    dsimp only
    split
    · rfl
    · split
      · rfl
      · exact (frame_enter _ _ _).toSystem
  | priority c u prio => exact (frame_setCriterion k c u prio).toSystem
  | update u elapsed =>
    unfold step Kernel.update
    dsimp only
    split <;> rfl

/-- Only `p()` and `v()` touch the semaphores. -/
theorem step_sem (k : Kernel) (a : Action) : (k.step a).sem = k.sem ∨
    (∃ s t, (k.step a).sem = (k.toSync.p s t).1.sem) ∨
      ∃ s t, (k.step a).sem = (k.toSync.v s t).1.sem := by
  -- what a call returns with is no part of the semaphores
  have hcomp (k : Kernel) (t : Tid) : (k.complete t).sem = k.sem := by
    obtain ⟨_, _, _, _, heq⟩ := complete_eq k t
    rw [heq]
  cases a with
  | p t s =>
    refine .inr (.inl ⟨s, t, ?_⟩)
    unfold step Kernel.p
    dsimp only
    split
    · rw [(frame_leave _ _ _).toSync]
      rfl
    · rw [hcomp]
      rfl
  | v t s =>
    refine .inr (.inr ⟨s, t, ?_⟩)
    unfold step Kernel.v
    dsimp only
    split
    · rw [hcomp]
      rfl
    · split
      · rw [hcomp, (frame_enter _ _ _).toSync]
        rfl
      · rw [(frame_enter _ _ _).toSync]
        rfl
  | handler c s =>
    unfold step Kernel.handler
    dsimp only
    split
    · exact .inl rfl
    · rename_i t _
      refine .inr (.inr ⟨s, t, ?_⟩)
      split
      · rfl
      · rw [(frame_enter _ _ _).toSync]
        rfl
  | ret t => exact .inl (hcomp k t)
  | create c t st => exact .inl (frame_create k c t st).sem
  | yield t => exact .inl (frame_yield k t).sem
  | exit t => exact .inl (frame_exit k t).sem
  | join t u =>
    left
    unfold step Kernel.join
    dsimp only
    split
    · rfl
    · rw [(frame_leave _ _ _).toSync]
      rfl
  | suspend t u => exact .inl (frame_suspend k t u).sem
  | resume c u => exact .inl (frame_resume k c u).sem
  | reschedule c => exact .inl (frame_reschedule k c).sem
  | priority c u prio => exact .inl (frame_setCriterion k c u prio).sem
  | update u elapsed =>
    left
    unfold step Kernel.update
    dsimp only
    split <;> rfl

/-- The running threads are read off the states. -/
theorem Placed.running_congr (h : k.Placed) (h' : k'.Placed) (hstate : k'.state = k.state)
    (hcore : k'.core = k.core) : k'.running c = some t ↔ k.running c = some t := by
  rw [h.running_iff, h'.running_iff, hstate, hcore]

/-- The class of a synchronizer never changes. -/
theorem step_protocol (k : Kernel) (a : Action) (s : Sid) :
    ((k.step a).sem s).protocol = (k.sem s).protocol := by
  rcases k.step_sem a with heq | ⟨s', t, heq⟩ | ⟨s', t, heq⟩
  · rw [heq]
  · rw [heq, Sync.p_protocol]
  · rw [heq, Sync.v_protocol]

/-- The kernel before the first call: nobody waits, is in a call or holds anything,
    and the ready lists are sorted. -/
structure Boot (k : Kernel) : Prop extends WellFormed k where
  value_nonneg : ∀ s, 0 ≤ (k.sem s).value
  queue_nil : ∀ s, (k.sem s).queue = []
  owner_none : ∀ s, (k.sem s).owner = none
  call_none : ∀ t, k.call t = none
  inside_nil : ∀ t, k.inside t = []
  list_sorted : ∀ c, (k.sched c).list.RankSorted k.priority

/-- After the boot the semaphores are counted. -/
theorem Boot.counted (h : k.Boot) : k.toSync.Counted := by
  intro s _
  have := h.value_nonneg s
  rw [h.queue_nil, List.length_nil]
  omega

/-- A single core with a preemptive criterion. -/
structure OneCore (k : Kernel) : Prop where
  preemptive : k.preemptive
  smp : ¬k.smp
  cores : k.cores = 1
  core : ∀ t, k.core t = 0

/-- Whether there is one core only depends on the configuration. -/
theorem OneCore.congr (h : k.OneCore) (hsys : k'.toSystem = k.toSystem) : k'.OneCore := by
  constructor <;> rw [hsys]
  · exact h.preemptive
  · exact h.smp
  · exact h.cores
  · exact h.core

/-- On one core a preemption is a `reschedule()`. -/
theorem OneCore.preempt_eq (h : k.OneCore) : k.preempt c cpu = k.reschedule c :=
  if_pos ⟨h.preemptive, .inl h.smp⟩

/-- On one core, entering the list is followed by `reschedule()`. -/
theorem OneCore.enter_eq (h : k.OneCore) :
    k.enter c u = ((k.setState u .ready).insert u).reschedule c :=
  (h.congr rfl : ((k.setState u .ready).insert u).OneCore).preempt_eq

/-- Every core runs its `first` thread, with its idle thread ready. -/
def multi (σ : Sync) (sys : System) (first : Nat → Tid) : Kernel where
  toSync := σ
  toSystem := sys
  state t :=
    if sys.core t < sys.cores then
      if t = first (sys.core t) then some .running
      else if t = sys.idle (sys.core t) then some .ready
      else none
    else none
  sched c := if c < sys.cores then { chosen := some (first c), list := [sys.idle c] } else {}

section

variable {σ : Sync} {sys : System} {first : Nat → Tid}

/-- The list of a core at boot: its first thread, and the idle one behind. -/
theorem multi_sched (c : Nat) : (multi σ sys first).sched c =
    if c < sys.cores then { chosen := some (first c), list := [sys.idle c] } else {} := rfl

/-- At boot every core runs its first thread. -/
theorem multi_running_iff : (multi σ sys first).state t = some .running ↔
    sys.core t < sys.cores ∧ t = first (sys.core t) := by
  simp only [multi]
  by_cases hc : sys.core t < sys.cores
  · by_cases ht : t = first (sys.core t)
    · simp [hc, ← ht]
    · by_cases ht' : t = sys.idle (sys.core t)
      · simp [hc, ht, ← ht']
      · simp [hc, ht, ht']
  · simp [hc]

/-- At boot the first threads and the idle ones compete. -/
theorem multi_schedulable_iff : (multi σ sys first).Schedulable t ↔
    sys.core t < sys.cores ∧ (t = first (sys.core t) ∨ t = sys.idle (sys.core t)) := by
  unfold Schedulable
  rw [multi_running_iff]
  simp only [multi]
  by_cases hc : sys.core t < sys.cores
  · by_cases ht : t = first (sys.core t)
    · simp [hc, ← ht]
    · by_cases ht' : t = sys.idle (sys.core t)
      · simp [hc, ht, ← ht']
      · simp [hc, ht, ht']
  · simp [hc]

/-- Each core lists `first c` and `idle c`, and that is all. -/
theorem multi_queued (hfirst : ∀ c < sys.cores, sys.core (first c) = c)
    (hidle : ∀ c < sys.cores, sys.core (sys.idle c) = c)
    (hne : ∀ c < sys.cores, first c ≠ sys.idle c) : (multi σ sys first).Queued where
  mem_iff c t := by
    rw [multi_sched, multi_schedulable_iff]
    show _ ↔ _ ∧ sys.core t = c
    -- only the first and the idle thread of each core were created
    by_cases hc : c < sys.cores
    · simp only [if_pos hc, SchedulingList.toList, Option.toList_some, List.mem_append,
        List.mem_singleton]
      constructor
      · intro h
        have hcore : sys.core t = c := by
          cases h with
          | inl h => rw [h, hfirst c hc]
          | inr h => rw [h, hidle c hc]
        rw [hcore]
        exact ⟨⟨hc, h⟩, rfl⟩
      · rintro ⟨⟨-, h⟩, rfl⟩
        exact h
    · simp only [if_neg hc, SchedulingList.toList, Option.toList_none, List.append_nil,
        List.not_mem_nil, false_iff]
      rintro ⟨⟨hlt, -⟩, rfl⟩
      exact hc hlt
  nodup c := by
    rw [multi_sched]
    by_cases hc : c < sys.cores
    · simp [hc, SchedulingList.toList, hne c hc]
    · simp [hc, SchedulingList.toList]
  isSome c hc := by
    have hlt : c < sys.cores := hc
    simp [running, multi_sched, hlt]
  idle c hc := by
    have hlt : c < sys.cores := hc
    simp [hlt, SchedulingList.toList, multi]
  core_lt t ht := by
    by_contra hc
    exact ht (if_neg hc)

/-- At boot everything is placed. -/
theorem multi_placed (hfirst : ∀ c < sys.cores, sys.core (first c) = c)
    (hidle : ∀ c < sys.cores, sys.core (sys.idle c) = c)
    (hne : ∀ c < sys.cores, first c ≠ sys.idle c) : (multi σ sys first).Placed where
  toQueued := multi_queued hfirst hidle hne
  running_iff c t := by
    rw [running, multi_sched, multi_running_iff]
    show _ ↔ _ ∧ sys.core t = c
    by_cases hc : c < sys.cores
    · simp only [if_pos hc, Option.some.injEq]
      constructor
      · rintro rfl
        rw [hfirst c hc]
        exact ⟨⟨hc, rfl⟩, rfl⟩
      · rintro ⟨⟨-, ht⟩, rfl⟩
        exact ht.symm
    · simp only [if_neg hc, reduceCtorEq, false_iff]
      rintro ⟨⟨hlt, -⟩, rfl⟩
      exact hc hlt

/-- At boot nobody waits. -/
theorem multi_waits (hq : ∀ s, (σ.sem s).queue = []) : (multi σ sys first).Waits where
  queued s t ht := by
    rw [show ((multi σ sys first).sem s).queue = [] from hq s] at ht
    cases ht
  queue_nodup s := by
    rw [show ((multi σ sys first).sem s).queue = [] from hq s]
    exact .nil
  joined u t h := nomatch h

end

/-- The multicore kernel of the examples has booted. -/
theorem multi_boot {σ : Sync} {sys : System} {first : Nat → Tid}
    (hfirst : ∀ c < sys.cores, sys.core (first c) = c)
    (hidle : ∀ c < sys.cores, sys.core (sys.idle c) = c)
    (hne : ∀ c < sys.cores, first c ≠ sys.idle c) (hq : ∀ s, (σ.sem s).queue = [])
    (ho : ∀ s, (σ.sem s).owner = none) (hv : ∀ s, 0 ≤ (σ.sem s).value) :
    (multi σ sys first).Boot where
  toWellFormed := ⟨multi_placed hfirst hidle hne, multi_waits hq⟩
  value_nonneg := hv
  queue_nil := hq
  owner_none := ho
  call_none _ := rfl
  inside_nil _ := rfl
  list_sorted c := by
    rw [multi_sched]
    by_cases hc : c < sys.cores <;> simp [hc, List.RankSorted]

/-- The threads in `ts` have been created, too, and are suspended. -/
def withSuspended (k : Kernel) (ts : List Tid) : Kernel :=
  { k with state := fun t => if t ∈ ts then some .suspended else k.state t }

/-- Threads that are created suspended are in no list. -/
theorem Boot.withSuspended (h : k.Boot) {ts : List Tid}
    (hts : ∀ t ∈ ts, k.state t = none ∧ k.core t < k.cores) : (k.withSuspended ts).Boot := by
  -- the threads added are suspended, so no other state changes
  have hstate (t : Tid) {st : State} (hst : st ≠ .suspended) :
      (k.withSuspended ts).state t = some st ↔ k.state t = some st := by
    unfold Kernel.withSuspended
    by_cases ht : t ∈ ts
    · simp [ht, (hts t ht).1, hst.symm]
    · simp [ht]
  have hsched (t : Tid) : (k.withSuspended ts).Schedulable t ↔ k.Schedulable t :=
    or_congr (hstate t (by decide)) (hstate t (by decide))
  constructor
  case toWellFormed =>
    refine ⟨⟨⟨fun c t => ?_, h.nodup, h.isSome, h.idle, fun t ht => ?_⟩, fun c t => ?_⟩,
      ⟨fun s t ht => ?_, h.queue_nodup, fun u t hj => ?_⟩⟩
    · rw [hsched]
      exact h.mem_iff c t
    · by_cases hmem : t ∈ ts
      · exact (hts t hmem).2
      · exact h.core_lt t (by simpa [Kernel.withSuspended, hmem] using ht)
    · rw [hstate t (by decide)]
      exact h.running_iff c t
    · rw [show ((k.withSuspended ts).sem s).queue = [] from h.queue_nil s] at ht
      cases ht
    · have hcall := (h.joined u t hj).2
      rw [h.call_none] at hcall
      cases hcall
  case value_nonneg => exact h.value_nonneg
  case queue_nil => exact h.queue_nil
  case owner_none => exact h.owner_none
  case call_none => exact h.call_none
  case inside_nil => exact h.inside_nil
  case list_sorted => exact h.list_sorted

/-- One core that runs `first`, with its idle thread ready. -/
def single (σ : Sync) (first idle : Tid) (elector : Elector) (level : Tid → Int)
    (resources : List Sid) : Kernel where
  toSync := σ
  elector := elector
  idle _ := idle
  level := level
  srpResources := resources
  state := Function.update (Function.update (fun _ => none) idle (some .ready)) first (some .running)
  sched := Function.update (fun _ => {}) 0 { chosen := some first, list := [idle] }

/-- The kernel with one core is one of these. -/
theorem single_eq_multi (σ : Sync) (first idle : Tid) (elector : Elector) (level : Tid → Int)
    (resources : List Sid) :
    single σ first idle elector level resources =
      multi σ { idle := fun _ => idle, elector, level, srpResources := resources }
        fun _ => first := by
  unfold single multi
  congr 1
  · funext t
    simp [Function.update_apply]
  · funext c
    simp [Function.update_apply]

/-- The kernel with one core has booted. -/
theorem single_boot {σ : Sync} {first idle : Tid} {elector : Elector} {level : Tid → Int}
    {resources : List Sid} (hne : first ≠ idle) (hq : ∀ s, (σ.sem s).queue = [])
    (ho : ∀ s, (σ.sem s).owner = none) (hv : ∀ s, 0 ≤ (σ.sem s).value) :
    (single σ first idle elector level resources).Boot := by
  rw [single_eq_multi]
  apply multi_boot
  · exact fun c hc => (Nat.lt_one_iff.mp hc).symm
  · exact fun c hc => (Nat.lt_one_iff.mp hc).symm
  · exact fun _ _ => hne
  · exact hq
  · exact ho
  · exact hv

end Kernel

end Epos
