import Epos.Spec.WellFormed

/-!
# Ready lists and waiting queues stay sorted

The rank of a thread is part of its list element, and three places change it where
the element is: `p()` on a PIP or PCP semaphore raises the owner, which may be
listed or queued by then, `v()` hands a semaphore over to the head of its queue,
and the handler of a periodic thread with a dynamic criterion updates it.
`Thread::priority`, in contrast, takes a ready thread out of its list first.

The head of the queue is taken off by the same `v()`. The other two changes keep
the order where the new rank fits between the thread's neighbours, and a run whose
changes all fit keeps every list sorted.
-/

namespace Epos

namespace Kernel

variable {k k' : Kernel} {c : Nat} {s : Sid} {t u : Tid} {st : State}

/-- Ready lists and priority queues are sorted by the current priorities. The
    queues of MSRP are not priority queues. -/
structure Sorted (k : Kernel) : Prop where
  list : ∀ c, (k.sched c).list.RankSorted k.priority
  queue : ∀ s, (k.sem s).protocol ≠ .msrp → (k.sem s).queue.RankSorted k.priority

/-- `choose()` and `wakeup()` take a most urgent thread. -/
structure TakesMostUrgent (k : Kernel) : Prop where
  choose : ∀ c y, ((k.sched c).choose k.priority (k.eligible c)).chosen = some y →
    (∀ x ∈ (k.sched c).list, k.eligible c x) → ∀ x ∈ (k.sched c).toList, k.priority y ≤ k.priority x
  wakeup : ∀ s t u, (k.sem s).protocol ≠ .msrp → (k.toSync.v s t).2 = some u →
    ∀ w ∈ (k.sem s).queue, k.priority u ≤ k.priority w

/-- The rank `p` fits where `t` is: in the list of its core, and in the queue of the
    semaphore whose `p()` it is in. -/
def Fits (k : Kernel) (t : Tid) (p : Int) : Prop :=
  (k.sched (k.core t)).list.FitsAt k.priority t p ∧
    match k.call t with
    | some (.p s) => (k.sem s).queue.FitsAt k.priority t p
    | _ => True

/-- Every rank that the call changes in place fits: the one of an owner that
    `p()` raises and the one that an `update()` computes. -/
def RanksFit (k : Kernel) : Action → Prop
  | .p t s =>
    match (k.sem s).owner with
    | some own => (k.sem s).protocol.owned →
      k.Fits own ((k.sem s).protocol.contended (k.ceiling s) (k.priority own) (k.priority t))
    | none => True
  | .update u elapsed =>
    Priority.high < k.priority u ∧ k.priority u < Priority.normal →
      k.Fits u (toInt (elapsed + k.deadline u))
  | _ => True

instance (k : Kernel) (t : Tid) (p : Int) : Decidable (k.Fits t p) := by
  unfold Fits
  cases k.call t with
  | none => infer_instance
  | some call => cases call <;> infer_instance

instance (k : Kernel) (a : Action) : Decidable (k.RanksFit a) :=
  match a with
  | .p t s =>
    match h : (k.sem s).owner with
    | some own =>
      decidable_of_iff ((k.sem s).protocol.owned → k.Fits own
        ((k.sem s).protocol.contended (k.ceiling s) (k.priority own) (k.priority t)))
        (by simp only [RanksFit, h])
    | none => isTrue (by simp only [RanksFit, h])
  | .update u elapsed =>
    inferInstanceAs (Decidable (Priority.high < k.priority u ∧ k.priority u < Priority.normal →
      k.Fits u (toInt (elapsed + k.deadline u))))
  | .v _ _ | .ret _ | .create _ _ _ | .yield _ | .exit _ | .join _ _ | .suspend _ _
  | .resume _ _ | .reschedule _ | .handler _ _ | .priority _ _ _ => isTrue trivial

/-- The head of a sorted list is the most urgent thread. -/
theorem Sorted.takesMostUrgent (h : k.Sorted) : k.TakesMostUrgent := by
  constructor
  case choose =>
    intro c y hy hel x hx
    -- a core that runs nobody chooses nobody
    cases hc : (k.sched c).chosen with
    | none =>
      have hself : (k.sched c).choose k.priority (k.eligible c) = k.sched c := by
        unfold SchedulingList.choose
        rw [hc]
      rw [hself, hc] at hy
      cases hy
    | some prev =>
      cases hl : (k.sched c).list with
      -- nobody else is ready
      | nil =>
        rw [SchedulingList.choose_eq_self (by simp [hl]), hc] at hy
        rw [SchedulingList.mem_toList, hc, hl] at hx
        obtain rfl : prev = y := Option.some.inj hy
        obtain rfl : prev = x := by simpa using hx
        exact le_rfl
      | cons z q =>
        -- the head of the list is at least as urgent as every other
        obtain ⟨y', hy', hle⟩ := SchedulingList.choose_urgent (h.list c) hc hl
          (hel z (by simp [hl]))
        rw [hy] at hy'
        obtain rfl := Option.some.inj hy'
        exact hle x hx
  case wakeup =>
    intro s t u hs hw w hmem
    -- v() wakes the head of the queue, which is sorted
    obtain ⟨-, hq⟩ := Sync.v_queue k.toSync s t
    rw [hw] at hq
    have hsort := h.queue s hs
    rw [hq] at hsort hmem
    exact hsort.head_le hmem

/-! ## Moves -/

/-- Sorting only depends on the lists and on the semaphores. -/
theorem Sorted.congr (h : k.Sorted) (hlist : ∀ c, (k'.sched c).list = (k.sched c).list)
    (hsync : k'.toSync = k.toSync) : k'.Sorted where
  list c := by
    rw [hlist, hsync]
    exact h.list c
  queue s hs := by
    rw [hsync] at hs ⊢
    exact h.queue s hs

/-- A list may be replaced by a sorted one. -/
theorem Sorted.setSched (h : k.Sorted) {f : SchedulingList → SchedulingList}
    (hf : (f (k.sched c)).list.RankSorted k.priority) : (k.setSched c f).Sorted where
  list c' := by
    rw [setSched_sched]
    split
    · exact hf
    · exact h.list c'
  queue := h.queue

/-- `dispatch()` keeps the lists sorted. -/
theorem Sorted.dispatch (h : k.Sorted) : (k.dispatch c t).Sorted :=
  h.congr (fun _ => by rw [dispatch_sched]) (frame_dispatch k c t).toSync

/-- `reschedule()` keeps the lists sorted. -/
theorem Sorted.reschedule (h : k.Sorted) : (k.reschedule c).Sorted := by
  unfold Kernel.reschedule
  split
  · exact h
  · exact (h.setSched (SchedulingList.choose_sorted (h.list c))).dispatch

/-- A preemption keeps the lists sorted. -/
theorem Sorted.preempt (h : k.Sorted) {cpu : Nat} : (k.preempt c cpu).Sorted := by
  unfold Kernel.preempt
  split
  · exact h.reschedule
  · exact h

/-- A state is no rank. -/
theorem Sorted.setState (h : k.Sorted) : (k.setState t st).Sorted := ⟨h.list, h.queue⟩

/-- `insert` keeps the list sorted. -/
theorem Sorted.insert (h : k.Sorted) : (k.insert t).Sorted :=
  h.setSched (SchedulingList.insert_sorted (h.list _))

/-- `remove` keeps the list sorted. -/
theorem Sorted.remove (h : k.Sorted) : (k.remove t).Sorted :=
  h.setSched (SchedulingList.remove_sorted (h.list _))

/-- A thread that leaves keeps the list sorted. -/
theorem Sorted.leave (h : k.Sorted) : (k.leave t st).Sorted :=
  h.setState.remove.dispatch

/-- A thread that enters keeps the list sorted. -/
theorem Sorted.enter (h : k.Sorted) : (k.enter c t).Sorted :=
  h.setState.insert.preempt

/-- The end of a call keeps the lists sorted. -/
theorem Sorted.complete (h : k.Sorted) : (k.complete t).Sorted := by
  obtain ⟨store, ceil, ceils, ins, heq⟩ := complete_eq k t
  rw [heq]
  exact ⟨h.list, h.queue⟩

/-! ## Changing a rank in place -/

/-- A thread that neither is listed nor queued may take any rank. -/
theorem Sorted.update_absent (h : k.Sorted) {x : Tid} (p : Int)
    (hl : ∀ c, x ∉ (k.sched c).list) (hq : ∀ s, x ∉ (k.sem s).queue) :
    (∀ c, (k.sched c).list.RankSorted (Function.update k.priority x p)) ∧
      ∀ s, (k.sem s).protocol ≠ .msrp →
        (k.sem s).queue.RankSorted (Function.update k.priority x p) := by
  constructor
  · refine fun c => (h.list c).congr fun y hy => (Function.update_of_ne ?_ _ _).symm
    rintro rfl
    exact hl c hy
  · refine fun s hs => (h.queue s hs).congr fun y hy => (Function.update_of_ne ?_ _ _).symm
    rintro rfl
    exact hq s hy

/-- A rank that fits may change in place. -/
theorem Sorted.update_fits (h : k.Sorted) (hwf : k.WellFormed) {x : Tid} {p : Int}
    (hfit : k.Fits x p) :
    (∀ c, (k.sched c).list.RankSorted (Function.update k.priority x p)) ∧
      ∀ s, (k.sem s).protocol ≠ .msrp →
        (k.sem s).queue.RankSorted (Function.update k.priority x p) := by
  constructor
  · refine fun c => (h.list c).update (SchedulingList.list_nodup (hwf.nodup c)) ?_
    by_cases hx : x ∈ (k.sched c).list
    · rw [← (hwf.mem_list_iff.mp hx).2]
      exact hfit.1
    · exact List.fitsAt_of_not_mem hx
  · refine fun s hs => (h.queue s hs).update (hwf.queue_nodup s) ?_
    by_cases hx : x ∈ (k.sem s).queue
    · have hq := hfit.2
      rw [(hwf.queued s x hx).2] at hq
      exact hq
    · exact List.fitsAt_of_not_mem hx

/-- A running thread is in no list and no queue. -/
theorem WellFormed.absent (h : k.WellFormed) (hr : k.running (k.core t) = some t) :
    (∀ c, t ∉ (k.sched c).list) ∧ ∀ s, t ∉ (k.sem s).queue := by
  have hst := (h.state_of_running hr).1
  refine ⟨fun c hmem => ?_, (h.not_waiting (.inl hst)).1⟩
  rw [h.mem_list_iff, hst] at hmem
  cases hmem.1

/-! ## `p()` and `v()` -/

/-- `p()` leaves the lists and queues sorted by the ranks that it leaves. -/
theorem Sorted.sync_p (h : k.Sorted) (hwf : k.WellFormed) (hr : k.running (k.core t) = some t)
    (hfit : k.RanksFit (.p t s)) :
    (∀ c, (k.sched c).list.RankSorted (k.toSync.p s t).1.priority) ∧
      ∀ s', ((k.toSync.p s t).1.sem s').protocol ≠ .msrp →
        ((k.toSync.p s t).1.sem s').queue.RankSorted (k.toSync.p s t).1.priority := by
  have hold : (∀ c, (k.sched c).list.RankSorted (k.toSync.p s t).1.priority) ∧
      ∀ s', (k.sem s').protocol ≠ .msrp →
        (k.sem s').queue.RankSorted (k.toSync.p s t).1.priority := by
    -- p() changes the rank of the running thread, or of the owner by inheritance
    rcases Sync.p_priority k.toSync s t with ⟨r, heq⟩ | ⟨own, hk, ho, heq⟩
    · rw [heq]
      obtain ⟨hl, hq⟩ := hwf.absent hr
      exact h.update_absent r hl hq
    · rw [heq]
      refine h.update_fits hwf ?_
      simp only [RanksFit, ho] at hfit
      exact hfit hk
  refine ⟨hold.1, fun s' hs' => ?_⟩
  rw [Sync.p_protocol] at hs'
  rw [Sync.p_queue]
  split
  · -- the caller is queued at the place of its rank
    rename_i hsl
    obtain ⟨rfl, -⟩ := hsl
    rw [if_neg hs']
    exact (hold.2 s' hs').insertRank t
  · exact hold.2 s' hs'

/-- `p()` keeps the lists sorted when the rank of the owner fits. -/
theorem Sorted.p (h : k.Sorted) (hwf : k.WellFormed) (hr : k.running (k.core t) = some t)
    (hfit : k.RanksFit (.p t s)) : (k.p t s).Sorted := by
  obtain ⟨hl, hq⟩ := h.sync_p hwf hr hfit
  have hcall : (k.callP t s).Sorted := ⟨hl, hq⟩
  unfold Kernel.p
  split
  · exact hcall.leave
  · exact hcall.complete

/-- `v()` leaves the lists and queues sorted: the thread whose rank changes is
    running or leaves its queue. -/
theorem Sorted.sync_v (h : k.Sorted) (hwf : k.WellFormed) (hc : k.toSync.Counted)
    (hr : k.running (k.core t) = some t) :
    (∀ c, (k.sched c).list.RankSorted (k.toSync.v s t).1.priority) ∧
      ∀ s', ((k.toSync.v s t).1.sem s').protocol ≠ .msrp →
        ((k.toSync.v s t).1.sem s').queue.RankSorted (k.toSync.v s t).1.priority := by
  obtain ⟨hl, hq⟩ := hwf.absent hr
  obtain ⟨hothers, hself⟩ := Sync.v_queue k.toSync s t
  have hsame (x : Tid) (hx : x ≠ t) (hxq : (k.sem s).queue.head? ≠ some x) :
      k.priority x = (k.toSync.v s t).1.priority x :=
    (Sync.v_priority hx hxq).symm
  constructor
  · refine fun c => (h.list c).congr fun x hx => hsame x ?_ fun hhead => ?_
    · rintro rfl
      exact hl c hx
    · refine hwf.toWaits.not_schedulable (List.mem_of_head? hhead) (.inr ?_)
      exact (hwf.mem_list_iff.mp hx).1
  · intro s' hs'
    rw [Sync.v_protocol] at hs'
    have hsort := h.queue s' hs'
    by_cases hs : s' = s
    · subst hs
      by_cases hcond : (k.sem s').protocol = .condition
      · rw [Sync.v_priority_condition hcond]
        rw [hself] at hsort
        exact (List.pairwise_append.mp hsort).2.1
      · cases hw : (k.toSync.v s' t).2 with
        | none =>
          -- nobody is queued
          have hnil := hc.queue_nil hcond hw
          rw [hw, hnil] at hself
          rw [← show [] = ((k.toSync.v s' t).1.sem s').queue from hself]
          exact List.rankSorted_nil _
        | some u =>
          rw [hw] at hself
          replace hself : (k.sem s').queue = u :: ((k.toSync.v s' t).1.sem s').queue := hself
          have hnd := hwf.queue_nodup s'
          rw [hself, List.nodup_cons] at hnd
          rw [hself] at hsort
          refine hsort.tail.congr fun x hx => hsame x ?_ ?_
          · rintro rfl
            exact hq s' (by rw [hself]; exact List.mem_cons_of_mem _ hx)
          · rw [hself, List.head?_cons, Ne, Option.some.injEq]
            rintro rfl
            exact hnd.1 hx
    · rw [hothers s' hs]
      refine hsort.congr fun x hx => hsame x ?_ fun hhead => hs ?_
      · rintro rfl
        exact hq s' hx
      · have h₁ := (hwf.queued s' x hx).2
        rw [(hwf.queued s x (List.mem_of_head? hhead)).2] at h₁
        simpa using h₁.symm

/-- `v()` keeps the lists sorted. -/
theorem Sorted.v (h : k.Sorted) (hwf : k.WellFormed) (hc : k.toSync.Counted)
    (hr : k.running (k.core t) = some t) : (k.v t s).Sorted := by
  obtain ⟨hl, hq⟩ := h.sync_v hwf hc hr (s := s)
  have hcall : (k.callV t s).Sorted := ⟨hl, hq⟩
  unfold Kernel.v
  split
  · exact hcall.complete
  · dsimp only
    split
    · exact hcall.enter.complete
    · exact hcall.enter

/-- A handler keeps the lists sorted. -/
theorem Sorted.handler (h : k.Sorted) (hwf : k.WellFormed) (hc : k.toSync.Counted) :
    (k.handler c s).Sorted := by
  unfold Kernel.handler
  split
  · exact h
  · rename_i t hr
    have hr' : k.running (k.core t) = some t := by rwa [(hwf.state_of_running hr).2]
    obtain ⟨hl, hq⟩ := h.sync_v hwf hc hr' (s := s)
    have hcall : (k.interruptV t s).Sorted := ⟨hl, hq⟩
    split
    · exact hcall
    · exact hcall.enter

/-! ## Thread operations -/

/-- The constructor keeps the lists sorted. -/
theorem Sorted.create (h : k.Sorted) : (k.create c t st).Sorted := by
  have hin : ((k.setState t st).insert t).Sorted := h.setState.insert
  unfold Kernel.create
  dsimp only
  split <;> split
  · exact hin.remove.preempt
  · exact hin.remove
  · exact hin.preempt
  · exact hin

/-- Resuming the joining thread keeps the lists sorted. -/
theorem Sorted.resumeJoiner (h : k.Sorted) : (k.resumeJoiner t).Sorted := by
  unfold Kernel.resumeJoiner
  split
  · exact h
  · rename_i j _
    have hin : ((k.setState j .ready).insert j).Sorted := h.setState.insert
    exact ⟨hin.list, hin.queue⟩

/-- `exit()` keeps the lists sorted. -/
theorem Sorted.exit (h : k.Sorted) : (k.exit t).Sorted := by
  have hre : (((k.setState t .finishing).remove t).resumeJoiner t).Sorted :=
    h.setState.remove.resumeJoiner
  exact (hre.setSched (SchedulingList.choose_sorted (hre.list _))).dispatch

/-- `join()` keeps the lists sorted. -/
theorem Sorted.join (h : k.Sorted) : (k.join t u).Sorted := by
  unfold Kernel.join
  split
  · exact h
  · have hcall : (k.callJoin t u).Sorted := ⟨h.list, h.queue⟩
    exact hcall.leave

/-- `Thread::priority` takes a ready thread out of its list before it changes the
    rank. -/
theorem Sorted.reorder (h : k.Sorted) (hwf : k.WellFormed) (hu : k.Schedulable u) {prio : Int} :
    (k.reorder u prio).Sorted := by
  have hnq := (hwf.not_waiting hu).1
  unfold Kernel.reorder
  split
  · rename_i hnr
    have hrem : (k.remove u).Sorted := h.remove
    have habsent (c : Nat) : u ∉ ((k.remove u).sched c).list := by
      rw [remove_sched]
      have hnot : (k.sched (k.core u)).chosen ≠ some u := fun hch =>
        hnr (hwf.state_of_running hch).1
      split
      · rw [SchedulingList.remove_listed hnot]
        exact (SchedulingList.list_nodup (hwf.nodup _)).not_mem_erase
      · rename_i hc
        intro hmem
        exact hc (hwf.mem_list_iff.mp hmem).2.symm
    obtain ⟨hl, hq⟩ := hrem.update_absent prio habsent hnq
    have hset : ((k.remove u).setRank u prio).Sorted := ⟨hl, hq⟩
    exact hset.insert
  · rename_i hst
    have hr : k.running (k.core u) = some u := (hwf.running_iff _ u).mpr ⟨not_not.mp hst, rfl⟩
    obtain ⟨hl, hq⟩ := h.update_absent prio (hwf.absent hr).1 hnq
    exact ⟨hl, hq⟩

/-- `priority()` keeps the lists sorted. -/
theorem Sorted.setCriterion (h : k.Sorted) (hwf : k.WellFormed) (hu : k.Schedulable u)
    {prio : Int} : (k.setCriterion c u prio).Sorted := by
  unfold Kernel.setCriterion
  dsimp only
  split
  · exact (h.reorder hwf hu).preempt
  · exact h.reorder hwf hu

/-- `update()` keeps the lists sorted when the new rank fits. -/
theorem Sorted.update (h : k.Sorted) (hwf : k.WellFormed) {elapsed : Int}
    (hfit : k.RanksFit (.update u elapsed)) : (k.update u elapsed).Sorted := by
  unfold Kernel.update
  split
  · rename_i hrt
    obtain ⟨hl, hq⟩ := h.update_fits hwf (hfit hrt)
    exact ⟨hl, hq⟩
  · exact h

/-! ## Who runs after a move -/

/-- `reschedule()` chooses from the list of its core. -/
theorem reschedule_sched (hr : k.running c = some t) (c' : Nat) : (k.reschedule c).sched c' =
    if c' = c then (k.sched c).choose k.priority (k.eligible c) else k.sched c' := by
  unfold Kernel.reschedule
  rw [hr]
  show ((k.setSched c _).dispatch c t).sched c' = _
  rw [dispatch_sched, setSched_sched]

/-- A thread that leaves is taken out of the list of its core. -/
theorem leave_sched (k : Kernel) (t : Tid) (st : State) (c' : Nat) : (k.leave t st).sched c' =
    if c' = k.core t then (k.sched (k.core t)).remove t else k.sched c' := by
  unfold Kernel.leave
  rw [dispatch_sched, remove_sched]
  rfl

/-- `yield()` chooses another thread from the list of its core. -/
theorem yield_sched (k : Kernel) (t : Tid) (c' : Nat) : (k.yield t).sched c' =
    if c' = k.core t then
      (k.sched (k.core t)).chooseAnother k.priority (k.eligible (k.core t))
    else k.sched c' := by
  unfold Kernel.yield
  rw [dispatch_sched, setSched_sched]

/-- After a `reschedule()` the same thread runs, or a most urgent one of the core. -/
theorem Sorted.reschedule_running (h : k.Sorted) (hr : k.running c = some t) :
    ∃ n, (k.reschedule c).running c = some n ∧
      (n = t ∨ ∀ x ∈ (k.sched c).toList, k.priority n ≤ k.priority x) := by
  have hsched := reschedule_sched hr c
  rw [if_pos rfl] at hsched
  rw [running, hsched]
  cases hl : (k.sched c).list with
  | nil =>
    rw [SchedulingList.choose_eq_self (by simp [hl])]
    exact ⟨t, hr, .inl rfl⟩
  | cons x q =>
    cases hel : k.eligible c x with
    | true =>
      obtain ⟨y, hy, hle⟩ := SchedulingList.choose_urgent (h.list c) hr hl hel
      exact ⟨y, hy, .inr hle⟩
    | false =>
      rw [SchedulingList.choose_eq_self]
      · exact ⟨t, hr, .inl rfl⟩
      · intro y q' hy
        rw [hl] at hy
        obtain ⟨rfl, -⟩ := List.cons.inj hy
        exact hel

/-- When the running thread leaves, a most urgent one of the others runs. -/
theorem Sorted.leave_running (h : k.Sorted) (hr : k.running (k.core t) = some t) {n : Tid}
    (hn : (k.leave t st).running (k.core t) = some n) :
    ∀ x ∈ (k.sched (k.core t)).list, k.priority n ≤ k.priority x := by
  rw [running, leave_sched, if_pos rfl] at hn
  exact SchedulingList.remove_urgent (h.list _) hr hn

/-- After a `yield()` the same thread runs, or a most urgent one of the others. -/
theorem Sorted.yield_running (h : k.Sorted) (hr : k.running (k.core t) = some t) {n : Tid}
    (hn : (k.yield t).running (k.core t) = some n) :
    n = t ∨ ∀ x ∈ (k.sched (k.core t)).list, k.priority n ≤ k.priority x := by
  rw [running, yield_sched, if_pos rfl] at hn
  refine (SchedulingList.chooseAnother_urgent (h.list _) hn).imp_left fun hch => ?_
  rw [running, hch] at hr
  exact Option.some.inj hr

/-- Every operation whose rank changes fit keeps lists and queues sorted. -/
theorem Sorted.step (h : k.Sorted) (hwf : k.WellFormed) (hc : k.toSync.Counted) {a : Action}
    (ha : k.CanAct a) (hfit : k.RanksFit a) : (k.step a).Sorted := by
  cases a with
  | p t s => exact h.p hwf ha.1.1 hfit
  | v t s => exact h.v hwf hc ha.1
  | ret t => exact h.complete
  | create c t st => exact h.create
  | yield t => exact (h.setSched (SchedulingList.chooseAnother_sorted (h.list _))).dispatch
  | exit t => exact h.exit
  | join t u => exact h.join
  | suspend t u => exact h.setState.remove.dispatch
  | resume c u =>
    show (k.resume c u).Sorted
    unfold Kernel.resume
    split
    · exact h.enter
    · exact h
  | reschedule c => exact h.reschedule
  | handler c s => exact h.handler hwf hc
  | priority c u prio => exact h.setCriterion hwf ha.2
  | update u elapsed => exact h.update hwf hfit

end Kernel

/-- Every step keeps the count of the queues. -/
theorem Sync.Counted.step {k : Kernel} (h : k.toSync.Counted) {a : Action} :
    (k.step a).toSync.Counted := by
  have hsem {σ : Sync} (hσ : σ.Counted) (heq : (k.step a).sem = σ.sem) :
      (k.step a).toSync.Counted := by
    intro s
    rw [heq]
    exact hσ s
  rcases k.step_sem a with heq | ⟨s, t, heq⟩ | ⟨s, t, heq⟩
  · exact hsem h heq
  · exact hsem h.p heq
  · exact hsem h.v heq

/-- Runs of the kernel from its start. -/
def kernel : TransitionSystem Kernel Action where
  Init k := k.Boot
  Enabled k a := k.CanAct a
  next := Kernel.step

instance (k : Kernel) (a : Action) : Decidable (kernel.Enabled k a) :=
  inferInstanceAs (Decidable (k.CanAct a))

/-- At boot the lists are sorted. -/
theorem Kernel.Boot.sorted {k : Kernel} (h : k.Boot) : k.Sorted where
  list := h.list_sorted
  queue s _ := by
    rw [h.queue_nil]
    exact List.rankSorted_nil _

namespace Kernel

/-- Threads of the priorities 9, 5, 6 and 3, a thread 8 that is idle, and PIP
    semaphores; thread 9 runs. -/
def pipKernel : Kernel :=
  single { priority := fun t => if t = 8 then Priority.idle else t
           sem := fun _ => { protocol := .pip }
           store := fun _ _ => 0 } 9 8 .always (fun _ => 0) []

/-- The kernel of the example has booted. -/
theorem pipKernel_boot : pipKernel.Boot :=
  single_boot (by decide) (fun _ => rfl) (fun _ => rfl) (fun _ => Int.one_nonneg)

end Kernel

end Epos
