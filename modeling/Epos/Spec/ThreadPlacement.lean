import Epos.ForStd.TransitionSystem
import Epos.Spec.Consistency

/-!
# The state of a thread and the list that it is in

One `_link` of a thread serves its ready list and all waiting queues, and the running
thread is kept outside its list. `InPlace` says that every thread is where its state
says and nowhere else, in lists that are linked properly. The operations keep it in
every order on any number of cores and queues, as long as threads suspend themselves
only.
-/

namespace Epos

namespace LinkedKernel

open Epos.Lists

variable {k : LinkedKernel} {sched : Nat → SchedulingList} {queue : Sid → List Tid}

/-! ## Being in place -/

/-- `l` are the lists in memory, and each thread is in the one that its state demands. -/
structure InPlace (k : LinkedKernel) (l : ListId → List Tid) : Prop where
  links : k.links.Holds k.header l
  once : ∀ i, (l i).Nodup
  running : ∀ c t, k.chosen c = some t ↔ k.state t = some .running ∧ k.core t = c
  ready : ∀ c t, t ∈ l (.ready c) ↔ k.state t = some .ready ∧ k.core t = c
  waiting : ∀ s t, t ∈ l (.queue s) ↔ k.state t = some .waiting ∧ k.WaitsOn t s
  waitsOn : ∀ t, k.state t = some .waiting → ∃ s, k.WaitsOn t s

/-- A thread that is running, suspended or finishing is in no list. -/
theorem InPlace.not_mem {l : ListId → List Tid} {t : Tid} {st : State} (h : k.InPlace l)
    (ht : k.state t = some st) (hst : st ≠ .ready ∧ st ≠ .waiting) (i : ListId) : t ∉ l i := by
  intro hi
  cases i with
  | ready c => exact hst.1 (Option.some.inj (ht.symm.trans ((h.ready c t).mp hi).1))
  | queue s => exact hst.2 (Option.some.inj (ht.symm.trans ((h.waiting s t).mp hi).1))

theorem Consistent.inPlace (h : k.Consistent sched queue) (hp : (k.view sched).Placed) :
    k.InPlace (contents sched queue) where
  links := h.holds.lists
  once i := (h.holds.lists.represents i).nodup
  running c t := by
    rw [h.holds.chosen]
    exact hp.running_iff c t
  ready _ _ := hp.mem_list_iff
  waiting := h.waits.mem_iff
  waitsOn := h.waits.waitsOn

/-! ## Runs -/

/-- Each core runs its idle thread, or another thread while the idle thread is the only
    one in its list. No other thread has been constructed. -/
structure Boot (k : LinkedKernel) : Prop where
  idle_core : ∀ c < k.cores, k.core (k.idle c) = c
  runs : ∀ c < k.cores, ∃ t, k.chosen c = some t ∧ k.core t = c
  idle_runs : ∀ c < k.cores, k.chosen c = some (k.idle c) → k.header (.ready c) = {}
  idle_ready : ∀ c < k.cores, k.chosen c ≠ some (k.idle c) →
    k.header (.ready c) = { size := 1, head := some (k.idle c), tail := some (k.idle c) } ∧
      k.links.prev (k.idle c) = none ∧ k.links.next (k.idle c) = none
  absent : ∀ c, k.cores ≤ c → k.chosen c = none ∧ k.header (.ready c) = {}
  queues : ∀ s, k.header (.queue s) = {}
  state : ∀ t, k.state t =
    if k.chosen (k.core t) = some t then some .running
    else if k.core t < k.cores ∧ t = k.idle (k.core t) then some .ready
    else none
  alone : ∀ t, k.waiting t = none ∧ k.waitingFifo t = none ∧ k.joining t = none

/-- The operations of the threads, any of which may come next. A run ends where an
    operation fails. -/
def system : TransitionSystem (Option LinkedKernel) LinkedAction where
  Init o := ∃ k, o = some k ∧ k.Boot
  Enabled o a := o.elim False fun k => k.CanAct a
  next o a := o.bind fun k => k.step a

/-- Threads suspend themselves only, and none passes its core on. -/
def Orderly (k : LinkedKernel) : LinkedAction → Prop
  | .suspend c u => k.chosen c = some u ∧ u ≠ k.idle c
  | .pass _ _ => False
  | _ => True

/-- The system of the orderly operations. -/
def orderly : TransitionSystem (Option LinkedKernel) LinkedAction where
  Init := system.Init
  Enabled o a := o.elim False fun k => k.CanAct a ∧ k.Orderly a
  next := system.next

/-- The scheduling lists at boot. -/
def bootSched (k : LinkedKernel) (c : Nat) : SchedulingList where
  chosen := k.chosen c
  list := if c < k.cores ∧ k.chosen c ≠ some (k.idle c) then [k.idle c] else []

theorem represents_nil (L : Links Tid) : L.Represents {} [] := ⟨rfl, rfl, rfl, trivial⟩

theorem Boot.mem_iff (h : k.Boot) (c : Nat) (t : Tid) : t ∈ (k.bootSched c).toList ↔
    (k.view k.bootSched).Schedulable t ∧ k.core t = c := by
  rw [SchedulingList.mem_toList]
  show k.chosen c = some t ∨ t ∈ (if c < k.cores ∧ k.chosen c ≠ some (k.idle c) then
    [k.idle c] else []) ↔ (k.state t = some .running ∨ k.state t = some .ready) ∧ k.core t = c
  rw [h.state]
  have hcore (hch : k.chosen c = some t) : k.core t = c := by
    by_cases hc : c < k.cores
    · obtain ⟨u, hu, hcu⟩ := h.runs c hc
      rw [hch, Option.some.injEq] at hu
      rw [hu, hcu]
    · -- There is no such core.
      rw [(h.absent c (Nat.le_of_not_lt hc)).1] at hch
      cases hch
  constructor
  · intro ht
    cases ht with
    | inl hch =>
      obtain rfl := hcore hch
      rw [if_pos hch]
      exact ⟨.inl rfl, rfl⟩
    | inr hmem =>
      split at hmem
      · rename_i hc
        obtain rfl := List.mem_singleton.mp hmem
        have hic := h.idle_core c hc.1
        rw [hic, if_neg hc.2, if_pos ⟨hc.1, rfl⟩]
        exact ⟨.inr rfl, rfl⟩
      · cases hmem
  · intro ⟨hst, hc⟩
    subst hc
    by_cases hch : k.chosen (k.core t) = some t
    · exact .inl hch
    · rw [if_neg hch] at hst
      by_cases hi : k.core t < k.cores ∧ t = k.idle (k.core t)
      · have hne : k.chosen (k.core t) ≠ some (k.idle (k.core t)) := hi.2 ▸ hch
        rw [if_pos ⟨hi.1, hne⟩]
        exact .inr (List.mem_singleton.mpr hi.2)
      · simp [if_neg hi] at hst

theorem Boot.placed (h : k.Boot) : (k.view k.bootSched).Placed := by
  constructor
  case toQueued =>
    constructor
    case mem_iff => exact h.mem_iff
    case nodup =>
      intro c
      show ((k.chosen c).toList ++ if c < k.cores ∧ k.chosen c ≠ some (k.idle c) then
        [k.idle c] else []).Nodup
      split
      · rename_i hc
        cases hch : k.chosen c with
        | none => simp
        | some t =>
          -- the idle thread is listed only where it is not chosen
          have hne : t ≠ k.idle c := fun heq => hc.2 (heq ▸ hch)
          simpa using hne
      · cases k.chosen c <;> simp
    case isSome =>
      intro c hc
      obtain ⟨t, ht, -⟩ := h.runs c hc
      exact Option.isSome_of_mem ht
    case idle =>
      intro c hc
      apply SchedulingList.mem_toList.mpr
      show k.chosen c = some (k.idle c) ∨ k.idle c ∈ (if c < k.cores ∧
        k.chosen c ≠ some (k.idle c) then [k.idle c] else [])
      by_cases hch : k.chosen c = some (k.idle c)
      · exact .inl hch
      · rw [if_pos ⟨hc, hch⟩]
        exact .inr (List.mem_singleton.mpr rfl)
    case core_lt =>
      intro t ht
      change k.state t ≠ none at ht
      show k.core t < k.cores
      by_contra hc
      rw [h.state, (h.absent _ (Nat.le_of_not_lt hc)).1] at ht
      simp [hc] at ht
  case running_iff =>
    intro c t
    show k.chosen c = some t ↔ k.state t = some .running ∧ k.core t = c
    rw [h.state]
    constructor
    · intro hch
      have hc := ((h.mem_iff c t).mp (SchedulingList.mem_toList_of_chosen hch)).2
      subst hc
      rw [if_pos hch]
      exact ⟨rfl, rfl⟩
    · intro ⟨hst, hc⟩
      subst hc
      by_contra hch
      rw [if_neg hch] at hst
      split at hst <;> cases hst

theorem Boot.holds (h : k.Boot) : k.Holds k.bootSched fun _ => [] := by
  refine ⟨⟨fun i => ?_, fun i j x hi hj => ?_⟩, fun c => rfl⟩
  · -- only the idle thread is in the list of a core, where another thread runs
    cases i with
    | ready c =>
      show k.links.Represents (k.header (.ready c))
        (if c < k.cores ∧ k.chosen c ≠ some (k.idle c) then [k.idle c] else [])
      split
      · rename_i hc
        obtain ⟨hh, hprev, hnext⟩ := h.idle_ready c hc.1 hc.2
        rw [hh]
        exact ⟨rfl, rfl, rfl, hprev, hnext, trivial⟩
      · rename_i hc
        have hh : k.header (.ready c) = {} := by
          by_cases hlt : c < k.cores
          · exact h.idle_runs c hlt (not_not.mp fun hne => hc ⟨hlt, hne⟩)
          · exact (h.absent c (Nat.le_of_not_lt hlt)).2
        rw [hh]
        exact represents_nil _
    | queue s =>
      show k.links.Represents (k.header (.queue s)) []
      rw [h.queues]
      exact represents_nil _
  · -- a thread is listed at its own core only, and the queues are empty
    have hcore (i : ListId) (hi : x ∈ contents k.bootSched (fun _ => []) i) :
        i = .ready (k.core x) := by
      cases i with
      | ready c =>
        rw [((h.mem_iff c x).mp (SchedulingList.mem_toList_of_list hi)).2]
      | queue s => cases hi
    rw [hcore i hi, hcore j hj]

theorem Boot.consistent (h : k.Boot) : k.Consistent k.bootSched fun _ => [] := by
  have hnw (t : Tid) : k.state t ≠ some .waiting := by
    rw [h.state]
    split
    · simp
    · split <;> simp
  refine ⟨⟨h.holds, h.placed.toQueued⟩, fun s t => ?_, fun t ht => absurd ht (hnw t),
    fun t _ => ⟨(h.alone t).1, (h.alone t).2.1⟩, fun u t ht => ?_, fun u v t hu _ => ?_⟩
  · exact ⟨fun hmem => (nomatch hmem), fun hst => absurd hst.1 (hnw t)⟩
  · rw [(h.alone u).2.2] at ht
    cases ht
  · rw [(h.alone u).2.2] at hu
    cases hu

/-! ## Steps -/

/-- Every orderly operation succeeds and leaves every thread in its place. -/
theorem Consistent.step_orderly {a : LinkedAction} (h : k.Consistent sched queue)
    (ha : k.CanAct a) (ho : k.Orderly a) : Keeps (k.view sched).Placed (k.step a) := by
  cases a with
  | create c t st crit => exact h.create ha.1 ha.2.1 ha.2.2.1 ha.2.2.2
  | yield c => exact h.yield ha
  | sleep c s => exact h.sleep ha
  | wakeup c s => exact h.wakeup ha
  | wakeupAll c s => exact h.wakeupAll ha
  | join c u => exact h.join ha.1
  | exit c => exact h.exit ha
  | suspend c u =>
    obtain ⟨prev, hch, hrun, hcore, hs⟩ := h.exists_chosen ha.1
    obtain rfl : prev = u := Option.some.inj (hrun.symm.trans ho.1)
    obtain ⟨k', sched', queue', heq, hk', hp⟩ := h.suspend ha.1 hs (hcore.symm ▸ ho.2)
    exact ⟨k', sched', queue', heq, hk', fun hP => hp ⟨hP, hch⟩⟩
  | resume c u => exact h.resume ha.1 ha.2
  | pass c t => exact ho.elim
  | reschedule c => exact h.reschedule ha
  | setRank u prio =>
    exact ⟨_, sched, queue, rfl, h.setRank, fun hP => hP.congr rfl rfl rfl⟩
  | elect eligible => exact ⟨_, sched, queue, rfl, h.elect, id⟩

/-- There is a kernel, and all of its threads are in their places. -/
def Sound (o : Option LinkedKernel) : Prop :=
  ∃ k sched queue, o = some k ∧ k.Consistent sched queue ∧ (k.view sched).Placed

theorem sound_next {o : Option LinkedKernel} {a : LinkedAction} (h : Sound o)
    (ha : orderly.Enabled o a) : Sound (orderly.next o a) := by
  obtain ⟨k, sched, queue, rfl, hk, hp⟩ := h
  obtain ⟨k', sched', queue', heq, hk', hp'⟩ := hk.step_orderly ha.1 ha.2
  exact ⟨k', sched', queue', heq, hk', hp' hp⟩

/-- Two cores: the thread 0 runs on core 0, where the idle thread 1 is ready, and the idle
    thread 2 on core 1. -/
def linkedExample : LinkedKernel where
  links := { prev := fun _ => none, next := fun _ => none }
  header i := if i = .ready 0 then { size := 1, head := some 1, tail := some 1 } else {}
  chosen c := if c = 0 then some 0 else if c = 1 then some 2 else none
  fifo s := s = 1
  state t := if t = 0 ∨ t = 2 then some .running else if t = 1 then some .ready else none
  waiting _ := none
  waitingFifo _ := none
  joining _ := none
  priority t := if t = 1 ∨ t = 2 then Priority.idle else Priority.main
  core t := if t = 2 then 1 else 0
  eligible _ := true
  preemptive := true
  smp := true
  cores := 2
  idle c := c + 1

theorem linkedExample_boot : linkedExample.Boot := by
  -- two cores; on core 1 nobody but the idle thread was created
  have hcases (c : Nat) (hc : c < linkedExample.cores) : c = 0 ∨ c = 1 := by
    change c < 2 at hc
    omega
  constructor
  · intro c hc
    cases hcases c hc with
    | inl h => subst h; rfl
    | inr h => subst h; rfl
  · intro c hc
    cases hcases c hc with
    | inl h => subst h; exact ⟨0, rfl, rfl⟩
    | inr h => subst h; exact ⟨2, rfl, rfl⟩
  · intro c hc hch
    cases hcases c hc with
    | inl h => subst h; cases hch
    | inr h => subst h; rfl
  · intro c hc hch
    cases hcases c hc with
    | inl h => subst h; exact ⟨rfl, rfl, rfl⟩
    | inr h => subst h; exact absurd rfl hch
  · intro c hc
    have h0 : c ≠ 0 := fun heq => absurd hc (heq ▸ by decide)
    have h1 : c ≠ 1 := fun heq => absurd hc (heq ▸ by decide)
    simp [linkedExample, h0, h1]
  · exact fun s => rfl
  · intro t
    by_cases h0 : t = 0
    · subst h0; rfl
    · by_cases h1 : t = 1
      · subst h1; rfl
      · by_cases h2 : t = 2
        · subst h2; rfl
        · simp [linkedExample, h0, h1, h2, Ne.symm h0]
  · exact fun t => ⟨rfl, rfl, rfl⟩

end LinkedKernel

open LinkedKernel

/-- In every state of every run of orderly operations each thread is in the one place
    that its state demands, and in no two lists. -/
theorem inPlace_of_run {k : LinkedKernel} (hk : k.Boot) (as : List LinkedAction)
    (hv : orderly.Valid (some k) as) :
    orderly.Always (fun o => ∃ k l, o = some k ∧ k.InPlace l) (some k) as := by
  have hsound : orderly.Always Sound (some k) as :=
    TransitionSystem.Meets.always (fun _ _ h ha _ => sound_next h ha)
      ⟨k, _, _, rfl, hk.consistent, hk.placed⟩ hv (TransitionSystem.meets_true _ _)
  refine hsound.imp fun o ho => ?_
  obtain ⟨k', sched, queue, heq, hcons, hp⟩ := ho
  exact ⟨k', Lists.contents sched queue, heq, hcons.inPlace hp⟩

/-- A thread is created on the other core, which is interrupted and switches to it; it
    sleeps there and is woken up again. -/
theorem inPlace_of_run_sleep : orderly.Always (fun o => ∃ k l, o = some k ∧ k.InPlace l)
    (some linkedExample)
    [.create 0 3 .ready ⟨5, 1⟩, .reschedule 1, .sleep 1 0, .wakeupAll 0 0, .reschedule 1] :=
  inPlace_of_run linkedExample_boot _
    ⟨⟨⟨by decide, rfl, by decide, .inl rfl⟩, trivial⟩, ⟨Nat.one_lt_two, trivial⟩,
      ⟨⟨Nat.one_lt_two, by decide⟩, trivial⟩, ⟨Nat.zero_lt_two, trivial⟩,
      ⟨Nat.one_lt_two, trivial⟩, trivial⟩

end Epos
