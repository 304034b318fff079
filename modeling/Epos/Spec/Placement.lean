import Epos.Kernel.Thread
import Epos.Spec.SchedulingListCorrect
import Epos.Spec.SemaphoreCorrect

/-!
# Every thread is in one place

A running thread is the chosen one of its core, a ready thread is in its core's
list and a waiting one in the queue of the semaphore whose `p()` it is in. The
operations break this between a move on a scheduling list and the `dispatch()`
that follows it; `Switching` is what holds there.
-/

namespace Epos

namespace Kernel

variable {k k' k'' : Kernel} {c : Nat} {s : Sid} {t u prev next : Tid} {st : State}

/-! ## Frames -/

/-- Only scheduling lists and thread states differ. -/
def Frame (k k' : Kernel) : Prop :=
  ∃ st sc, k' = { k with state := st, sched := sc }

/-- Nothing moves. -/
theorem Frame.refl (k : Kernel) : Frame k k := ⟨_, _, rfl⟩

/-- Two moves are one. -/
theorem Frame.trans (h : Frame k k') (h' : Frame k' k'') : Frame k k'' := by
  obtain ⟨_, _, rfl⟩ := h
  obtain ⟨st, sc, rfl⟩ := h'
  exact ⟨st, sc, rfl⟩

/-- Changing a state is a move. -/
theorem frame_setState (k : Kernel) (t : Tid) (st : State) : Frame k (k.setState t st) :=
  ⟨_, _, rfl⟩

/-- Changing a scheduling list is a move. -/
theorem frame_setSched (k : Kernel) (c : Nat) (f : SchedulingList → SchedulingList) :
    Frame k (k.setSched c f) :=
  ⟨_, _, rfl⟩

/-- `dispatch()` only moves threads. -/
theorem frame_dispatch (k : Kernel) (c : Nat) (prev : Tid) : Frame k (k.dispatch c prev) := by
  unfold dispatch
  split
  · exact .refl k
  · dsimp only
    split
    · exact .refl k
    · split
      · exact (frame_setState k _ _).trans (frame_setState _ _ _)
      · exact frame_setState k _ _

/-- `reschedule()` only moves threads. -/
theorem frame_reschedule (k : Kernel) (c : Nat) : Frame k (k.reschedule c) := by
  unfold reschedule
  split
  · exact .refl k
  · exact (frame_setSched k _ _).trans (frame_dispatch _ _ _)

/-- A preemption only moves threads. -/
theorem frame_preempt (k : Kernel) (c cpu : Nat) : Frame k (k.preempt c cpu) := by
  unfold preempt
  split
  · exact frame_reschedule k c
  · exact .refl k

/-- A thread that leaves its list moves. -/
theorem frame_leave (k : Kernel) (t : Tid) (st : State) : Frame k (k.leave t st) :=
  ((frame_setState k t st).trans (frame_setSched _ _ _)).trans (frame_dispatch _ _ _)

/-- A thread that enters its list moves. -/
theorem frame_enter (k : Kernel) (c : Nat) (t : Tid) : Frame k (k.enter c t) :=
  ((frame_setState k t .ready).trans (frame_setSched _ _ _)).trans (frame_preempt _ _ _)

/-- The constructor of a thread moves it. -/
theorem frame_create (k : Kernel) (c : Nat) (t : Tid) (st : State) :
    Frame k (k.create c t st) := by
  have hin : Frame k ((k.setState t st).insert t) :=
    (frame_setState _ _ _).trans (frame_setSched _ _ _)
  unfold Kernel.create
  dsimp only
  split <;> split
  · exact (hin.trans (frame_setSched _ _ _)).trans (frame_preempt _ _ _)
  · exact hin.trans (frame_setSched _ _ _)
  · exact hin.trans (frame_preempt _ _ _)
  · exact hin

/-- `yield()` only moves threads. -/
theorem frame_yield (k : Kernel) (t : Tid) : Frame k (k.yield t) :=
  (frame_setSched _ _ _).trans (frame_dispatch _ _ _)

/-- `suspend()` only moves threads. -/
theorem frame_suspend (k : Kernel) (t u : Tid) : Frame k (k.suspend t u) :=
  ((frame_setState k u .suspended).trans (frame_setSched _ _ _)).trans (frame_dispatch _ _ _)

/-- `resume()` only moves threads. -/
theorem frame_resume (k : Kernel) (c : Nat) (u : Tid) : Frame k (k.resume c u) := by
  unfold Kernel.resume
  split
  · exact frame_enter k c u
  · exact .refl k

/-- Outside the lists, `exit()` only forgets who joins the thread. -/
theorem frame_resumeJoiner (k : Kernel) (t : Tid) :
    Frame { k with joining := if (k.joining t).isSome then Function.update k.joining t none
      else k.joining } (k.resumeJoiner t) := by
  unfold resumeJoiner
  cases k.joining t with
  | none => exact .refl k
  | some j => exact ⟨_, _, rfl⟩

/-- `exit()` clears who joins the thread, and moves threads. -/
theorem frame_exit (k : Kernel) (t : Tid) :
    Frame { k with joining := if (k.joining t).isSome then Function.update k.joining t none
      else k.joining } (k.exit t) := by
  obtain ⟨st, sc, heq⟩ := frame_resumeJoiner ((k.setState t .finishing).remove t) t
  have hleft : Frame _ (((k.setState t .finishing).remove t).resumeJoiner t) := ⟨st, sc, heq⟩
  exact (hleft.trans (frame_setSched _ _ _)).trans (frame_dispatch _ _ _)

/-- Of the fields that are not about scheduling, only the rank of `u` changes. -/
theorem frame_reorder (k : Kernel) (u : Tid) (prio : Int) :
    Frame (k.setRank u prio) (k.reorder u prio) := by
  unfold reorder
  split
  · exact ⟨_, _, rfl⟩
  · exact .refl _

/-- `priority()` changes one rank, and moves threads. -/
theorem frame_setCriterion (k : Kernel) (c : Nat) (u : Tid) (prio : Int) :
    Frame (k.setRank u prio) (k.setCriterion c u prio) := by
  unfold Kernel.setCriterion
  dsimp only
  split
  · exact (frame_reorder k u prio).trans (frame_preempt _ _ _)
  · exact frame_reorder k u prio

namespace Frame

/-- A move leaves the semaphores alone. -/
theorem toSync (h : Frame k k') : k'.toSync = k.toSync := by
  obtain ⟨_, _, rfl⟩ := h; rfl

theorem sem (h : Frame k k') : k'.sem = k.sem :=
  congrArg Sync.sem h.toSync

/-- A move leaves the configuration alone. -/
theorem toSystem (h : Frame k k') : k'.toSystem = k.toSystem := by
  obtain ⟨_, _, rfl⟩ := h; rfl

/-- A move leaves the calls alone. -/
theorem call (h : Frame k k') : k'.call = k.call := by
  obtain ⟨_, _, rfl⟩ := h; rfl

/-- A move leaves alone who joins whom. -/
theorem joining (h : Frame k k') : k'.joining = k.joining := by
  obtain ⟨_, _, rfl⟩ := h; rfl

/-- A move leaves alone who holds what. -/
theorem inside (h : Frame k k') : k'.inside = k.inside := by
  obtain ⟨_, _, rfl⟩ := h; rfl

/-- A move leaves the SRP system ceiling alone. -/
theorem srpCeiling (h : Frame k k') : k'.srpCeiling = k.srpCeiling := by
  obtain ⟨_, _, rfl⟩ := h; rfl

/-- A move leaves the MSRP system ceilings alone. -/
theorem msrpCeiling (h : Frame k k') : k'.msrpCeiling = k.msrpCeiling := by
  obtain ⟨_, _, rfl⟩ := h; rfl

end Frame

/-! ## Placement -/

/-- `t` competes for its core. -/
def Schedulable (k : Kernel) (t : Tid) : Prop :=
  k.state t = some .running ∨ k.state t = some .ready

/-- The scheduling lists hold the schedulable threads, each once and on its core,
    and every core has its idle thread. -/
structure Queued (k : Kernel) : Prop where
  mem_iff : ∀ c t, t ∈ (k.sched c).toList ↔ k.Schedulable t ∧ k.core t = c
  nodup : ∀ c, (k.sched c).toList.Nodup
  isSome : ∀ c < k.cores, (k.running c).isSome
  idle : ∀ c < k.cores, k.idle c ∈ (k.sched c).toList
  core_lt : ∀ t, k.state t ≠ none → k.core t < k.cores

/-- The core `c`, on which `prev` has been running, is about to `dispatch()`. -/
structure Switching (k : Kernel) (c : Nat) (prev : Tid) : Prop extends Queued k where
  elsewhere : ∀ c' t, c' ≠ c →
    (k.running c' = some t ↔ k.state t = some .running ∧ k.core t = c')
  here : ∀ t, k.state t = some .running → k.core t = c → t = prev
  prev_state : k.Schedulable prev → k.state prev = some .running
  prev_core : k.core prev = c
  lt : c < k.cores

/-- The chosen threads are the running ones. -/
structure Placed (k : Kernel) : Prop extends Queued k where
  running_iff : ∀ c t, k.running c = some t ↔ k.state t = some .running ∧ k.core t = c

/-- The chosen thread is in the state running, on its core. -/
theorem Placed.state_of_running (h : k.Placed) (hr : k.running c = some t) :
    k.state t = some .running ∧ k.core t = c :=
  (h.running_iff c t).mp hr

/-- Only existing cores run threads. -/
theorem Placed.lt_of_running (h : k.Placed) (hr : k.running c = some t) : c < k.cores := by
  obtain ⟨hst, hc⟩ := h.state_of_running hr
  rw [← hc]
  exact h.core_lt t (by simp [hst])

/-- The ready threads are the listed ones. -/
theorem Placed.mem_list_iff (h : k.Placed) :
    t ∈ (k.sched c).list ↔ k.state t = some .ready ∧ k.core t = c := by
  have hmem := h.mem_iff c t
  rw [SchedulingList.mem_toList] at hmem
  have hrun := h.running_iff c t
  constructor
  · intro ht
    obtain ⟨hs, hc⟩ := hmem.mp (.inr ht)
    refine ⟨hs.resolve_left fun hst => ?_, hc⟩
    exact SchedulingList.not_mem_list (h.nodup c) (hrun.mpr ⟨hst, hc⟩) ht
  · rintro ⟨hst, hc⟩
    refine (hmem.mpr ⟨.inr hst, hc⟩).resolve_left fun hch => ?_
    rw [hrun.mp hch |>.1] at hst
    cases hst

/-- Before a switch everything is placed. -/
theorem Placed.switching (h : k.Placed) (hr : k.running c = some prev) : k.Switching c prev where
  toQueued := h.toQueued
  elsewhere c' t _ := h.running_iff c' t
  here t hst hc := by
    have := (h.running_iff c t).mpr ⟨hst, hc⟩
    rw [hr, Option.some.injEq] at this
    exact this.symm
  prev_state _ := (h.state_of_running hr).1
  prev_core := (h.state_of_running hr).2
  lt := h.lt_of_running hr

/-! ## Dispatching -/

/-- `dispatch()` leaves the scheduling lists alone. -/
theorem dispatch_sched (k : Kernel) (c : Nat) (prev : Tid) :
    (k.dispatch c prev).sched = k.sched := by
  unfold dispatch
  split
  · rfl
  · dsimp only
    split
    · rfl
    · split <;> rfl

/-- `dispatch()` to the same thread does nothing. -/
theorem dispatch_self (h : k.running c = some prev) : k.dispatch c prev = k := by
  unfold dispatch
  rw [h]
  simp

/-- `dispatch()` makes the next thread running, and the previous one ready if it was running. -/
theorem dispatch_state (hr : k.running c = some next) (hne : prev ≠ next) :
    (k.dispatch c prev).state u =
      if u = next then some .running
      else if u = prev ∧ k.state prev = some .running then some .ready
      else k.state u := by
  unfold dispatch
  rw [hr]
  simp only [if_neg hne]
  by_cases hun : u = next
  · simp [setState, hun]
  · by_cases hst : k.state prev = some .running
    · by_cases hup : u = prev
      · simp [setState, hst, hup, hne]
      · simp [setState, hst, hun, hup]
    · simp [setState, hst, hun]

/-- The chosen thread competes for its core. -/
theorem Queued.next_mem (h : k.Queued) (hr : k.running c = some next) :
    k.Schedulable next ∧ k.core next = c :=
  (h.mem_iff c next).mp (SchedulingList.mem_toList_of_chosen hr)

/-- Without a next thread `dispatch()` does nothing. -/
theorem dispatch_of_not_running (hr : k.running c = none) : k.dispatch c prev = k := by
  unfold dispatch
  rw [hr]

/-- A switch only moves threads between running and ready. -/
theorem Queued.dispatch_state_of_not (h : k.Queued) (hu : ¬k.Schedulable u) :
    (k.dispatch c prev).state u = k.state u := by
  cases hr : k.running c with
  | none => rw [dispatch_of_not_running hr]
  | some next =>
    by_cases hne : prev = next
    · rw [dispatch_self (hne ▸ hr)]
    · have hun : u ≠ next := fun heq => hu (heq ▸ (h.next_mem hr).1)
      rw [dispatch_state hr hne, if_neg hun, if_neg]
      rintro ⟨rfl, hst⟩
      exact hu (.inl hst)

/-- `dispatch()` changes nobody's competing. -/
theorem Queued.dispatch_schedulable (h : k.Queued) :
    (k.dispatch c prev).Schedulable u ↔ k.Schedulable u := by
  cases hr : k.running c with
  | none => rw [dispatch_of_not_running hr]
  | some next =>
    by_cases hne : prev = next
    · rw [dispatch_self (hne ▸ hr)]
    · have hnext := (h.next_mem hr).1
      unfold Schedulable at *
      rw [dispatch_state hr hne]
      by_cases hun : u = next
      · simpa [hun] using hnext
      · by_cases hup : u = prev ∧ k.state prev = some .running
        · simp [hup, hne]
        · simp only [if_neg hun, if_neg hup]

/-- `dispatch()` keeps the lists right. -/
theorem Queued.dispatch (h : k.Queued) : (k.dispatch c prev).Queued := by
  have hsched := dispatch_sched k c prev
  have hframe := frame_dispatch k c prev
  have hlt : ∀ u, (k.dispatch c prev).state u ≠ none → k.core u < k.cores := by
    intro u hu
    by_cases hs : k.Schedulable u
    · refine h.core_lt u ?_
      rcases hs with hs | hs <;> simp [hs]
    · rw [h.dispatch_state_of_not hs] at hu
      exact h.core_lt u hu
  constructor <;> simp only [running, hsched, hframe.toSystem, h.dispatch_schedulable]
  case mem_iff => exact h.mem_iff
  case nodup => exact h.nodup
  case isSome => exact h.isSome
  case idle => exact h.idle
  case core_lt => exact hlt

/-- After `dispatch()` everything is placed. -/
theorem Switching.placed_dispatch (h : k.Switching c prev) : (k.dispatch c prev).Placed := by
  obtain ⟨next, hr⟩ := Option.isSome_iff_exists.mp (h.isSome c h.lt)
  have hframe := frame_dispatch k c prev
  have hsched := dispatch_sched k c prev
  obtain ⟨hnext, hcore⟩ := h.next_mem hr
  constructor
  case toQueued => exact h.toQueued.dispatch
  case running_iff =>
    intro c' u
    rw [running, hsched, hframe.toSystem]
    show k.running c' = some u ↔ _
    by_cases hne : prev = next
    · -- the chosen thread runs already
      rw [dispatch_self (hne ▸ hr)]
      by_cases hc : c' = c
      · subst hc
        rw [hr, Option.some.injEq]
        constructor
        · rintro rfl
          exact ⟨hne ▸ h.prev_state (hne ▸ hnext), hcore⟩
        · rintro ⟨hst, hc⟩
          rw [← hne, h.here u hst hc]
      · exact h.elsewhere c' u hc
    · rw [dispatch_state hr hne]
      by_cases hc : c' = c
      · subst hc
        rw [hr, Option.some.injEq]
        constructor
        · rintro rfl
          simp [hcore]
        · rintro ⟨hst, hc⟩
          by_contra hun
          rw [if_neg (Ne.symm hun)] at hst
          split at hst
          · cases hst
          · rename_i hnot
            have hup := h.here u hst hc
            exact hnot ⟨hup, hup ▸ hst⟩
      · -- the threads of the other cores keep their states
        rw [h.elsewhere c' u hc]
        have hun : k.core u = c' → u ≠ next := fun hcu heq => hc (by rw [← hcu, heq, hcore])
        have hup : k.core u = c' → u ≠ prev := fun hcu heq => hc (by rw [← hcu, heq, h.prev_core])
        constructor
        · rintro ⟨hst, hcu⟩
          simp [hun hcu, hup hcu, hst, hcu]
        · rintro ⟨hst, hcu⟩
          simpa [hun hcu, hup hcu, hcu] using hst

/-- Where the chosen thread is the one that has been running, nothing is pending. -/
theorem Switching.placed (h : k.Switching c prev) (hr : k.running c = some prev) : k.Placed := by
  have := h.placed_dispatch
  rwa [dispatch_self hr] at this

/-! ## Moves on the scheduling lists -/

/-- The scheduling list of one core changes. -/
theorem setSched_sched (k : Kernel) (c : Nat) (f : SchedulingList → SchedulingList) (c' : Nat) :
    (k.setSched c f).sched c' = if c' = c then f (k.sched c) else k.sched c' := by
  simp [setSched, Function.update_apply]

/-- A list operation that permutes the threads of the core. -/
theorem Queued.setSched (h : k.Queued) {f : SchedulingList → SchedulingList}
    (hperm : (f (k.sched c)).toList.Perm (k.sched c).toList)
    (hsome : c < k.cores → (f (k.sched c)).chosen.isSome) : (k.setSched c f).Queued := by
  have hmem (c' : Nat) : ((k.setSched c f).sched c').toList.Perm (k.sched c').toList := by
    rw [setSched_sched]
    split
    · rename_i hc
      subst hc
      exact hperm
    · exact .refl _
  constructor
  case mem_iff => exact fun c' u => (hmem c').mem_iff.trans (h.mem_iff c' u)
  case nodup => exact fun c' => (hmem c').nodup_iff.mpr (h.nodup c')
  case isSome =>
    intro c' hc'
    rw [running, setSched_sched]
    split
    · rename_i hc
      subst hc
      exact hsome hc'
    · exact h.isSome c' hc'
  case idle => exact fun c' hc' => (hmem c').mem_iff.mpr (h.idle c' hc')
  case core_lt => exact h.core_lt

/-- Between a change of the list and `dispatch()`: a permutation keeps what a switch needs. -/
theorem Switching.setSched (h : k.Switching c prev) {f : SchedulingList → SchedulingList}
    (hperm : (f (k.sched c)).toList.Perm (k.sched c).toList)
    (hsome : (f (k.sched c)).chosen.isSome) : (k.setSched c f).Switching c prev := by
  constructor
  case toQueued => exact h.toQueued.setSched hperm fun _ => hsome
  case elsewhere =>
    intro c' u hc'
    rw [running, setSched_sched, if_neg hc']
    exact h.elsewhere c' u hc'
  case here => exact h.here
  case prev_state => exact h.prev_state
  case prev_core => exact h.prev_core
  case lt => exact h.lt

/-! ### Insertion -/

/-- `insert` puts the thread into the list of its core. -/
theorem insert_sched (k : Kernel) (t : Tid) (c : Nat) :
    (k.insert t).sched c =
      if c = k.core t then (k.sched (k.core t)).insert k.priority t else k.sched c :=
  setSched_sched _ _ _ _

/-- Where a thread is chosen, an insertion leaves it chosen. -/
theorem insert_running (h : (k.running (k.core t)).isSome) (c : Nat) :
    (k.insert t).running c = k.running c := by
  rw [running, insert_sched]
  split
  · rename_i hc
    subst hc
    obtain ⟨x, hx⟩ := Option.isSome_iff_exists.mp h
    rw [SchedulingList.insert_chosen hx]
    exact hx.symm
  · rfl

/-- The state of one thread changes. -/
theorem setState_state (k : Kernel) (t : Tid) (st : State) (u : Tid) :
    (k.setState t st).state u = if u = t then some st else k.state u := by
  simp [setState, Function.update_apply]

/-- `t` becomes ready. -/
theorem setState_ready_schedulable (k : Kernel) (t u : Tid) :
    ((k.setState t .ready).insert t).Schedulable u ↔ u = t ∨ k.Schedulable u := by
  show (k.setState t .ready).Schedulable u ↔ _
  unfold Schedulable
  rw [setState_state]
  by_cases hu : u = t <;> simp [hu]

/-- A thread that becomes ready and enters its list keeps the lists right. -/
theorem Queued.insert (h : k.Queued) (ht : ¬k.Schedulable t) (hlt : k.core t < k.cores) :
    ((k.setState t .ready).insert t).Queued := by
  have hrun := insert_running (k := k.setState t .ready) (t := t) (h.isSome _ hlt)
  constructor
  case mem_iff =>
    intro c u
    rw [insert_sched, setState_ready_schedulable]
    split
    · -- on the core of t its list gets one more element
      rename_i hc
      rw [SchedulingList.insert_perm.mem_iff, List.mem_cons]
      show u = t ∨ u ∈ (k.sched (k.core t)).toList ↔ _
      rw [h.mem_iff]
      subst hc
      constructor
      · rintro (rfl | ⟨hu, hcu⟩)
        · exact ⟨.inl rfl, rfl⟩
        · exact ⟨.inr hu, hcu⟩
      · rintro ⟨hu, hcu⟩
        exact hu.imp_right fun hu => ⟨hu, hcu⟩
    · -- the lists of the other cores stay
      rename_i hc
      show u ∈ (k.sched c).toList ↔ _
      rw [h.mem_iff]
      constructor
      · rintro ⟨hu, hcu⟩
        exact ⟨.inr hu, hcu⟩
      · rintro ⟨hu, hcu⟩
        refine ⟨hu.resolve_left fun heq => hc ?_, hcu⟩
        rw [← hcu, heq]
        rfl
  case nodup =>
    intro c
    rw [insert_sched]
    split
    · rw [SchedulingList.insert_perm.nodup_iff, List.nodup_cons]
      refine ⟨fun hmem => ht ?_, h.nodup _⟩
      exact ((h.mem_iff (k.core t) t).mp hmem).1
    · exact h.nodup c
  case isSome =>
    intro c hc
    rw [hrun]
    exact h.isSome c hc
  case idle =>
    intro c hc
    have hi := h.idle c hc
    rw [insert_sched]
    split
    · rename_i hc'
      subst hc'
      exact SchedulingList.insert_perm.mem_iff.mpr (List.mem_cons_of_mem _ hi)
    · exact hi
  case core_lt =>
    intro u hu
    by_cases hut : u = t
    · subst hut
      exact hlt
    · refine h.core_lt u ?_
      change (k.setState t .ready).state u ≠ none at hu
      rwa [setState_state, if_neg hut] at hu

/-- A thread that becomes ready is inserted. -/
theorem Switching.insert (h : k.Switching c prev) (ht : ¬k.Schedulable t)
    (hlt : k.core t < k.cores) (hne : t ≠ prev) :
    ((k.setState t .ready).insert t).Switching c prev := by
  have hrun := insert_running (k := k.setState t .ready) (t := t) (h.isSome _ hlt)
  have hstate := setState_state k t .ready
  constructor
  case toQueued => exact h.toQueued.insert ht hlt
  case elsewhere =>
    -- t runs nowhere, before and after
    intro c' u hc'
    rw [hrun]
    show k.running c' = some u ↔ (k.setState t .ready).state u = _ ∧ k.core u = c'
    rw [hstate]
    by_cases hut : u = t
    · subst hut
      have hnot : k.running c' ≠ some u := fun hr =>
        ht (.inl ((h.elsewhere c' u hc').mp hr).1)
      simp [hnot]
    · rw [if_neg hut]
      exact h.elsewhere c' u hc'
  case here =>
    intro u hst hcu
    change (k.setState t .ready).state u = _ at hst
    rw [hstate] at hst
    split at hst
    · cases hst
    · exact h.here u hst hcu
  case prev_state =>
    rw [setState_ready_schedulable]
    intro hs
    show (k.setState t .ready).state prev = _
    rw [hstate, if_neg (Ne.symm hne)]
    exact h.prev_state (hs.resolve_left (Ne.symm hne))
  case prev_core => exact h.prev_core
  case lt => exact h.lt

/-- A thread that becomes ready and enters its list keeps everything placed. -/
theorem Placed.insert (h : k.Placed) (ht : ¬k.Schedulable t) (hlt : k.core t < k.cores) :
    ((k.setState t .ready).insert t).Placed := by
  obtain ⟨prev, hr⟩ := Option.isSome_iff_exists.mp (h.isSome _ hlt)
  have hne : t ≠ prev := fun heq => ht (.inl (heq ▸ (h.state_of_running hr).1))
  refine ((h.switching hr).insert ht hlt hne).placed ?_
  rw [insert_running (k := k.setState t .ready) (h.isSome _ hlt)]
  exact hr

/-! ### Removal -/

/-- `remove` takes the thread out of the list of its core. -/
theorem remove_sched (k : Kernel) (t : Tid) (c : Nat) :
    (k.remove t).sched c =
      if c = k.core t then (k.sched (k.core t)).remove t else k.sched c :=
  setSched_sched _ _ _ _

/-- `t` stops competing. -/
theorem setState_remove_schedulable (hst : st ≠ .running ∧ st ≠ .ready) :
    ((k.setState t st).remove t).Schedulable u ↔ u ≠ t ∧ k.Schedulable u := by
  show (k.setState t st).Schedulable u ↔ _
  unfold Schedulable
  rw [setState_state]
  by_cases hu : u = t <;> simp [hu, hst]

/-- A thread that stops competing and leaves its list keeps the lists right. -/
theorem Queued.remove (h : k.Queued) (ht : k.Schedulable t) (hidle : t ≠ k.idle (k.core t))
    (hst : st ≠ .running ∧ st ≠ .ready) : ((k.setState t st).remove t).Queued := by
  -- `t` leaves the list of its core, and is in no other
  have hlt : k.core t < k.cores := h.core_lt t (by rcases ht with ht | ht <;> simp [ht])
  have hmem (c : Nat) (u : Tid) : u ∈ (((k.setState t st).remove t).sched c).toList ↔
      u ≠ t ∧ u ∈ (k.sched c).toList := by
    rw [remove_sched]
    split
    · rename_i hc
      subst hc
      rw [SchedulingList.remove_toList]
      exact (h.nodup _).mem_erase_iff
    · rename_i hc
      show u ∈ (k.sched c).toList ↔ _
      rw [h.mem_iff]
      constructor
      · rintro ⟨hu, hcu⟩
        exact ⟨fun heq => hc (by rw [← hcu, heq]; rfl), hu, hcu⟩
      · exact fun hu => hu.2
  constructor
  case mem_iff =>
    intro c u
    rw [hmem, setState_remove_schedulable hst, h.mem_iff, and_assoc]
    rfl
  case nodup =>
    intro c
    rw [remove_sched]
    split
    · rw [SchedulingList.remove_toList]
      exact (h.nodup _).erase t
    · exact h.nodup c
  case isSome =>
    intro c hc
    rw [running, remove_sched]
    split
    · -- the idle thread of the core is left
      show ((k.sched (k.core t)).remove t).chosen.isSome
      by_cases hch : (k.sched (k.core t)).chosen = some t
      · have hi := SchedulingList.mem_toList.mp (h.idle _ hlt)
        rw [hch, Option.some.injEq] at hi
        replace hi := hi.resolve_left hidle
        rw [SchedulingList.remove_chosen hch]
        cases hl : (k.sched (k.core t)).list with
        | nil => simp [hl] at hi
        | cons x xs => rfl
      · rw [SchedulingList.remove_listed hch]
        exact h.isSome _ hlt
    · exact h.isSome c hc
  case idle =>
    intro c hc
    refine (hmem c _).mpr ⟨?_, h.idle c hc⟩
    show k.idle c ≠ t
    rintro rfl
    have hcore := ((h.mem_iff c _).mp (h.idle c hc)).2
    exact hidle (by rw [hcore])
  case core_lt =>
    intro u hu
    by_cases hut : u = t
    · subst hut
      exact hlt
    · refine h.core_lt u ?_
      change (k.setState t st).state u ≠ none at hu
      rwa [setState_state, if_neg hut] at hu

/-- The running thread is taken off its core. -/
theorem Placed.remove_running (h : k.Placed) (hr : k.running (k.core t) = some t)
    (hidle : t ≠ k.idle (k.core t)) (hst : st ≠ .running ∧ st ≠ .ready) :
    ((k.setState t st).remove t).Switching (k.core t) t := by
  have hstate := setState_state k t st
  constructor
  case toQueued => exact h.toQueued.remove (.inl (h.state_of_running hr).1) hidle hst
  case elsewhere =>
    intro c u hc
    have hrun : ((k.setState t st).remove t).running c = k.running c := by
      rw [running, remove_sched]
      exact congrArg _ (if_neg hc)
    rw [hrun]
    show _ ↔ (k.setState t st).state u = _ ∧ k.core u = c
    rw [h.running_iff, hstate]
    by_cases hut : u = t
    · -- t ran on c, so it ran on no other core
      subst hut
      simp [Ne.symm hc]
    · rw [if_neg hut]
  case here =>
    intro u hu hcu
    change (k.setState t st).state u = _ at hu
    rw [hstate] at hu
    split at hu
    · assumption
    · have := (h.running_iff _ u).mpr ⟨hu, hcu⟩
      rw [hr, Option.some.injEq] at this
      exact this.symm
  case prev_state =>
    rw [setState_remove_schedulable hst]
    exact fun hs => absurd rfl hs.1
  case prev_core => rfl
  case lt => exact h.lt_of_running hr

/-- A ready thread is taken out of its list. -/
theorem Placed.remove_ready (h : k.Placed) (ht : k.state t = some .ready)
    (hidle : t ≠ k.idle (k.core t)) (hst : st ≠ .running ∧ st ≠ .ready) :
    ((k.setState t st).remove t).Placed := by
  -- t is ready, so it does not run
  have hnot : k.running (k.core t) ≠ some t := by
    intro hr
    rw [(h.state_of_running hr).1] at ht
    cases ht
  constructor
  case toQueued => exact h.toQueued.remove (.inr ht) hidle hst
  case running_iff =>
    intro c u
    have hrun : ((k.setState t st).remove t).running c = k.running c := by
      rw [running, remove_sched]
      split
      · rename_i hc
        subst hc
        show ((k.sched (k.core t)).remove t).chosen = _
        rw [SchedulingList.remove_listed hnot]
        rfl
      · rfl
    rw [hrun, h.running_iff]
    show _ ↔ (k.setState t st).state u = _ ∧ k.core u = c
    rw [setState_state]
    by_cases hut : u = t
    · subst hut
      simp [ht, hst.1]
    · rw [if_neg hut]

/-! ## The operations of the scheduler -/

/-- `reschedule()` keeps everything placed. -/
theorem Placed.reschedule (h : k.Placed) : (k.reschedule c).Placed := by
  unfold Kernel.reschedule
  split
  · exact h
  · rename_i prev hr
    exact ((h.switching hr).setSched SchedulingList.choose_perm
      (SchedulingList.choose_isSome (h.isSome c (h.lt_of_running hr)))).placed_dispatch

/-- A preemption keeps everything placed. -/
theorem Placed.preempt (h : k.Placed) {cpu : Nat} : (k.preempt c cpu).Placed := by
  unfold Kernel.preempt
  split
  · exact h.reschedule
  · exact h

/-- A thread that enters keeps everything placed. -/
theorem Placed.enter (h : k.Placed) (ht : ¬k.Schedulable t) (hlt : k.core t < k.cores) :
    (k.enter c t).Placed :=
  (h.insert ht hlt).preempt

/-- A running thread that leaves keeps everything placed. -/
theorem Placed.leave (h : k.Placed) (hr : k.running (k.core t) = some t)
    (hidle : t ≠ k.idle (k.core t)) (hst : st ≠ .running ∧ st ≠ .ready) :
    (k.leave t st).Placed :=
  (h.remove_running hr hidle hst).placed_dispatch

/-- `yield()` keeps everything placed. -/
theorem Placed.yield (h : k.Placed) (hr : k.running (k.core t) = some t) :
    (k.yield t).Placed :=
  ((h.switching hr).setSched SchedulingList.chooseAnother_perm
    (SchedulingList.chooseAnother_isSome (h.isSome _ (h.lt_of_running hr)))).placed_dispatch

/-- Placement does not depend on anything else in the kernel. -/
theorem Queued.congr (h : k.Queued) (hsched : k'.sched = k.sched) (hstate : k'.state = k.state)
    (hsys : k'.toSystem = k.toSystem) : k'.Queued := by
  constructor <;> simp only [Schedulable, running, hsched, hstate, hsys]
  · exact h.mem_iff
  · exact h.nodup
  · exact h.isSome
  · exact h.idle
  · exact h.core_lt

/-- Placement only depends on lists, states and configuration. -/
theorem Placed.congr (h : k.Placed) (hsched : k'.sched = k.sched) (hstate : k'.state = k.state)
    (hsys : k'.toSystem = k.toSystem) : k'.Placed := by
  constructor
  case toQueued => exact h.toQueued.congr hsched hstate hsys
  case running_iff =>
    simp only [running, hsched, hstate, hsys]
    exact h.running_iff

/-- A thread that does not compete may change its state and its core. -/
theorem Queued.change (h : k.Queued) (hsched : k'.sched = k.sched) (hcores : k'.cores = k.cores)
    (hidle : k'.idle = k.idle) (ht : ¬k.Schedulable t) (ht' : ¬k'.Schedulable t)
    (hlt : k'.core t < k.cores)
    (hold : ∀ u, u ≠ t → k'.state u = k.state u ∧ k'.core u = k.core u) : k'.Queued := by
  -- t is in no list before and after, and the others are as they were
  have hiff (u : Tid) (c : Nat) :
      (k.Schedulable u ∧ k.core u = c) ↔ (k'.Schedulable u ∧ k'.core u = c) := by
    by_cases hu : u = t
    · subst hu
      exact ⟨fun hs => absurd hs.1 ht, fun hs => absurd hs.1 ht'⟩
    · unfold Schedulable
      rw [(hold u hu).1, (hold u hu).2]
  constructor
  case mem_iff =>
    intro c u
    rw [hsched, h.mem_iff, hiff]
  case nodup =>
    rw [hsched]
    exact h.nodup
  case isSome =>
    rw [hcores]
    unfold running
    rw [hsched]
    exact h.isSome
  case idle =>
    rw [hcores, hidle, hsched]
    exact h.idle
  case core_lt =>
    intro u hu
    rw [hcores]
    by_cases hut : u = t
    · exact hut ▸ hlt
    · rw [(hold u hut).1] at hu
      rw [(hold u hut).2]
      exact h.core_lt u hu

/-- A thread outside of the lists may change its state and core. -/
theorem Placed.change (h : k.Placed) (hsched : k'.sched = k.sched) (hcores : k'.cores = k.cores)
    (hidle : k'.idle = k.idle) (ht : ¬k.Schedulable t) (ht' : ¬k'.Schedulable t)
    (hlt : k'.core t < k.cores)
    (hold : ∀ u, u ≠ t → k'.state u = k.state u ∧ k'.core u = k.core u) : k'.Placed := by
  refine ⟨h.toQueued.change hsched hcores hidle ht ht' hlt hold, fun c u => ?_⟩
  unfold running
  rw [hsched]
  refine (h.running_iff c u).trans ?_
  by_cases hu : u = t
  · subst hu
    exact ⟨fun hs => absurd (.inl hs.1) ht, fun hs => absurd (.inl hs.1) ht'⟩
  · rw [(hold u hu).1, (hold u hu).2]

/-- What an insertion did is undone by a removal. -/
theorem Queued.insert_remove (h : k.Queued) (ht : ¬k.Schedulable t) (hlt : k.core t < k.cores) :
    ((k.setState t st).insert t).remove t = k.setState t st := by
  obtain ⟨prev, hr⟩ := Option.isSome_iff_exists.mp (h.isSome _ hlt)
  have hnt : t ∉ (k.sched (k.core t)).toList := fun hmem => ht ((h.mem_iff _ t).mp hmem).1
  have hne : some prev ≠ some t := by
    rintro heq
    rw [heq] at hr
    exact hnt (SchedulingList.mem_toList_of_chosen hr)
  have hback : ((k.sched (k.core t)).insert k.priority t).remove t = k.sched (k.core t) := by
    rw [SchedulingList.insert_chosen hr, SchedulingList.remove_listed hne,
      List.erase_insertRank _ fun hmem => hnt (SchedulingList.mem_toList_of_list hmem), ← hr]
    rfl
  unfold Kernel.remove Kernel.insert setState Kernel.setSched
  simp only [Function.update_self, Function.update_idem, hback, Function.update_eq_self]

end Kernel

end Epos
