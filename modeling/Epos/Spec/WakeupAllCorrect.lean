import Epos.Kernel.WakeupAll
import Epos.Spec.WellFormed

/-!
# `wakeup_all()` and its lock

Each `reschedule(i)` releases the lock that `wakeup_all()` was entered with, and nothing
else does once there is a thread to wake up. A call releases it once, and owns it where it
asserts that, exactly if the threads that it wakes up belong to one CPU, with a queue.
-/

namespace Epos

/-! ## The mask -/

/-- The test of the loop is a bit of the set. -/
theorem marked_iff {cpus : BitVec 32} {i : Nat} (hi : i < 32) :
    marked cpus i = true ↔ cpus.getLsbD i = true := by
  unfold marked
  rw [decide_eq_true_iff, ← BitVec.twoPow_eq, BitVec.and_twoPow]
  split
  · rename_i hbit
    refine iff_of_true (fun hzero => ?_) hbit
    have := congrArg (fun x => x.getLsbD i) hzero
    simp [hi] at this
  · rename_i hbit
    exact iff_of_false (fun hne => hne rfl) hbit

/-- No CPU is marked at first. -/
theorem marked_zero (i : Nat) : marked 0 i = false := by
  simp [marked]

/-- Marking adds one CPU. -/
theorem marked_or {cpus : BitVec 32} {c i : Nat} (hi : i < 32) :
    marked (cpus ||| 1#32 <<< c) i = true ↔ marked cpus i = true ∨ i = c := by
  rw [marked_iff hi, marked_iff hi, BitVec.getLsbD_or, Bool.or_eq_true, ← BitVec.twoPow_eq,
    BitVec.getLsbD_twoPow]
  have hbit : (decide (c < 32) && decide (c = i)) = true ↔ i = c := by
    rw [Bool.and_eq_true, decide_eq_true_iff, decide_eq_true_iff]
    omega
  rw [hbit]

namespace Kernel

variable {k : Kernel} {s : Sid} {c : Nat} {t : Tid}

/-- A woken thread does not take the place of a chosen one. -/
theorem running_insert_of_running (h : k.running c = some t) (u : Tid) :
    (k.insert u).running c = some t := by
  show (Function.update k.sched (k.core u) ((k.sched (k.core u)).insert k.priority u) c).chosen
    = some t
  rw [Function.update_apply]
  split
  · rename_i hc
    have hchosen : (k.sched (k.core u)).chosen = some t := by
      rw [← hc]
      exact h
    unfold SchedulingList.insert
    rw [hchosen]
  · exact h

/-- What the loop leaves alone, and the mask that it makes. -/
theorem wakeAll_spec (q : List Tid) (cpus : BitVec 32) (hq : (k.sem s).queue = q) :
    (k.wakeAll s cpus q.length).1.toSystem = k.toSystem ∧
      (k.running c = some t → (k.wakeAll s cpus q.length).1.running c = some t) ∧
      ∀ i < 32, marked (k.wakeAll s cpus q.length).2 i = true ↔
        marked cpus i = true ∨ i ∈ q.map k.core := by
  induction q generalizing k cpus with
  | nil =>
    refine ⟨rfl, fun h => h, fun i _ => ?_⟩
    show marked cpus i = true ↔ _
    simp
  | cons u q ih =>
    let σ := (k.dequeue s).1
    let k' := ({ k with toSync := σ }.setState u .ready).insert u
    have hstep : k.wakeAll s cpus (u :: q).length
        = k'.wakeAll s (cpus ||| 1#32 <<< k.core u) q.length := by
      simp only [List.length_cons, wakeAll, Sync.dequeue, hq, List.head?_cons]
      rfl
    -- one thread is taken off, made ready and marked by the bit of its CPU
    have hq' : (k'.sem s).queue = q := by
      show (Function.update k.sem s { k.sem s with queue := (k.sem s).queue.tail } s).queue = q
      rw [Function.update_self, hq]
      rfl
    have ih := ih (k := k') (cpus ||| 1#32 <<< k.core u) hq'
    rw [hstep]
    refine ⟨ih.1, fun h => ih.2.1 (running_insert_of_running h u), fun i hi => ?_⟩
    rw [ih.2.2 i hi, marked_or hi, List.map_cons, List.mem_cons, or_assoc]
    rfl

end Kernel

namespace WakeupAll

variable {s : WakeupAll} {a : WakeupAction} {woken : List Nat} {cpus : BitVec 32} {i : Nat}

/-! ## What a call should do -/

/-- The caller releases the lock once, before it returns. -/
def ReleasedOnce (s : WakeupAll) : Prop :=
  s.releases ≤ 1 ∧ (s.point = .ret → s.releases = 1)

/-- The CPUs in `woken` are rescheduled before the call gives up the processor. -/
def RescheduledAll (woken : List Nat) (s : WakeupAll) : Prop :=
  s.point = .ret ∨ (∃ cpus i, s.point = .switched cpus i) → ∀ c ∈ woken, c ∈ s.rescheduled

/-- The `assert(locked())` of a reschedule is about a lock of the caller. -/
def OwnsLock (s : WakeupAll) : WakeupAction → Prop
  | .step => ∀ i ∈ s.reschedules, s.lock.owner = some s.self
  | .others .. => True

/-- The CPUs of the threads that the call wakes up. -/
def wokenCpus (s : WakeupAll) : List Nat := (s.sem s.queue).queue.map s.core

/-- Whatever the others do. -/
def Correct (woken : List Nat) (s : WakeupAll) : Prop :=
  ∀ as, wakingAll.Valid s as →
    wakingAll.Always (fun s => s.ReleasedOnce ∧ s.RescheduledAll woken) s as ∧
      wakingAll.Meets OwnsLock s as

/-! ## The invariant for one CPU -/

/-- The lock has not been released yet. -/
structure Held (s : WakeupAll) : Prop where
  lock : s.lock = { owner := some s.self, level := 1 }
  releases : s.releases = 0
  rescheduled : s.rescheduled = []

/-- The lock has been released and the CPUs in `woken` have been rescheduled. -/
structure Freed (woken : List Nat) (s : WakeupAll) : Prop where
  lock : s.lock.owner ≠ some s.self
  releases : s.releases = 1
  rescheduled : ∀ c ∈ woken, c ∈ s.rescheduled

/-- The mask has the CPUs in `woken`, and there are some. -/
structure Mask (woken : List Nat) (cpus : BitVec 32) : Prop where
  marked : ∀ i < 32, marked cpus i = true ↔ i ∈ woken
  ne_nil : woken ≠ []

def At (woken : List Nat) (s : WakeupAll) : WakeupPoint → Prop
  | .start => s.Held ∧ s.wokenCpus = woken ∧ s.preemptive = true
  | .loop cpus i =>
    Mask woken cpus ∧
      (s.Held ∧ (∀ j < i, j ∉ woken) ∨ s.Freed woken ∧ ∀ j, i ≤ j → j ∉ woken)
  | .switched cpus i =>
    Mask woken cpus ∧ s.Freed woken ∧ ∀ j, i + 1 ≤ j → j ∉ woken
  | .ret => s.Freed woken

structure Inv (woken : List Nat) (s : WakeupAll) : Prop where
  smp : s.smp = true
  queues_le : s.queues ≤ 32
  woken_lt : ∀ c ∈ woken, c < s.queues
  one : ∀ c ∈ woken, ∀ d ∈ woken, c = d
  point : s.At woken s.point

/-- When the loop begins the lock is held. -/
theorem Begins.held (h : s.Begins) : s.Held := ⟨h.lock, h.releases, h.rescheduled⟩

/-- The invariant holds when the loop begins, if all threads are woken on one CPU. -/
theorem Begins.inv (h : s.Begins) (hone : ∀ c ∈ s.wokenCpus, ∀ d ∈ s.wokenCpus, c = d)
    (hlt : ∀ c ∈ s.wokenCpus, c < s.queues) : s.Inv s.wokenCpus where
  smp := h.smp
  queues_le := h.queues_le
  woken_lt := hlt
  one := hone
  point := by
    rw [h.point]
    exact ⟨h.held, rfl, h.preemptive⟩

/-- A release by a caller that holds the lock once leaves it to nobody. -/
theorem Held.lock_release (h : s.Held) (hsmp : s.smp = true) : s.release.lock.owner = none := by
  show (if s.smp then s.lock.release else s.lock).owner = none
  rw [if_pos hsmp, h.lock]
  rfl

/-- Releasing the lock once frees it. -/
theorem Held.freed_release (h : s.Held) (hsmp : s.smp = true)
    (hrescheduled : ∀ c ∈ woken, c ∈ s.rescheduled) : s.release.Freed woken where
  lock := by
    rw [h.lock_release hsmp]
    exact nofun
  releases := congrArg (· + 1) h.releases
  rescheduled := hrescheduled

/-- A reschedule goes on in the loop, or in another thread. -/
theorem reschedule_point (s : WakeupAll) (cpus : BitVec 32) (i : Nat) :
    (s.reschedule cpus i).point = .loop cpus (i + 1) ∨
      (s.reschedule cpus i).point = .switched cpus i := by
  simp only [reschedule]
  split
  · split
    · exact .inl rfl
    · exact .inr rfl
  · exact .inl rfl

/-- What a reschedule does to the lock does not depend on the CPU. -/
theorem reschedule_spec (s : WakeupAll) (cpus : BitVec 32) (i : Nat) :
    (s.reschedule cpus i).lock = s.release.lock ∧
      (s.reschedule cpus i).releases = s.releases + 1 ∧
      (s.reschedule cpus i).rescheduled = i :: s.rescheduled ∧
      (s.reschedule cpus i).self = s.self ∧ (s.reschedule cpus i).queues = s.queues ∧
      (s.reschedule cpus i).toSystem = s.toSystem := by
  unfold reschedule
  split
  · exact ⟨rfl, rfl, rfl, rfl, rfl, s.step_toSystem (.reschedule s.cpu)⟩
  · exact ⟨rfl, rfl, rfl, rfl, rfl, rfl⟩

/-- Rescheduling the one CPU frees the lock. -/
theorem Held.freed_reschedule (h : s.Held) (hsmp : s.smp = true)
    (hwoken : ∀ c ∈ woken, c = i) : (s.reschedule cpus i).Freed woken := by
  obtain ⟨hlock, hreleases, hrescheduled, -⟩ := reschedule_spec s cpus i
  constructor
  · rw [hlock, h.lock_release hsmp]
    exact nofun
  · rw [hreleases, h.releases]
  · intro c hc
    rw [hrescheduled, hwoken c hc]
    exact List.mem_cons_self

/-- The loop over the queue, from the start of a call. -/
theorem mask_of_waiting (hne : (s.sem s.queue).queue ≠ []) :
    Mask s.wokenCpus (s.wakeAll s.queue 0 (s.sem s.queue).queue.length).2 where
  marked i hi := by
    rw [(Kernel.wakeAll_spec (c := 0) (t := 0) (s.sem s.queue).queue 0 rfl).2.2 i hi, marked_zero]
    exact ⟨fun h => h.resolve_left nofun, .inr⟩
  ne_nil h := hne (List.map_eq_nil_iff.mp h)

/-- Every step keeps the invariant. -/
theorem Inv.step (h : s.Inv woken) (ha : s.CanAct a) : (s.step a).Inv woken := by
  have hpoint := h.point
  cases a with
  | others k lock cpu =>
    obtain ⟨howner, howner', hsmp, -⟩ := ha
    refine ⟨hsmp.trans h.smp, h.queues_le, h.woken_lt, h.one, ?_⟩
    have hheld : ¬s.Held := fun hheld => howner (congrArg RecursiveLock.owner hheld.lock)
    have hfreed (hf : s.Freed woken) : (s.step (.others k lock cpu)).Freed woken :=
      ⟨howner', hf.releases, hf.rescheduled⟩
    show (s.step (.others k lock cpu)).At woken s.point
    cases hp : s.point with
    | start =>
      rw [hp] at hpoint
      exact absurd hpoint.1 hheld
    | loop cpus i =>
      rw [hp] at hpoint
      obtain ⟨hmask, hor⟩ := hpoint
      obtain ⟨hf, hrest⟩ := hor.resolve_left fun hb => hheld hb.1
      exact ⟨hmask, .inr ⟨hfreed hf, hrest⟩⟩
    | switched cpus i =>
      rw [hp] at hpoint
      obtain ⟨hmask, hf, hrest⟩ := hpoint
      exact ⟨hmask, hfreed hf, hrest⟩
    | ret =>
      rw [hp] at hpoint
      exact hfreed hpoint
  | step =>
    simp only [WakeupAll.step]
    cases hp : s.point with
    | start =>
      rw [hp] at hpoint
      obtain ⟨hheld, hwoken, hpre⟩ := hpoint
      dsimp only
      by_cases hnil : (s.sem s.queue).queue = []
      · rw [if_pos hnil]
        have hempty : woken = [] := by
          rw [← hwoken, wokenCpus, hnil]
          rfl
        refine ⟨h.smp, h.queues_le, h.woken_lt, h.one, ?_⟩
        have hf : s.release.Freed woken := hheld.freed_release h.smp (by simp [hempty])
        exact ⟨hf.lock, hf.releases, hf.rescheduled⟩
      · rw [if_neg hnil]
        have hsys := (Kernel.wakeAll_spec (k := s.toKernel) (s := s.queue) (c := 0) (t := 0)
          (s.sem s.queue).queue 0 rfl).1
        have hmask := mask_of_waiting hnil
        rw [hwoken] at hmask
        rw [if_pos ((congrArg System.preemptive hsys).trans hpre)]
        refine ⟨(congrArg System.smp hsys).trans h.smp, h.queues_le, h.woken_lt, h.one, hmask,
          .inl ⟨⟨hheld.lock, hheld.releases, hheld.rescheduled⟩, ?_⟩⟩
        intro j hj
        exact absurd hj (Nat.not_lt_zero j)
    | loop cpus i =>
      rw [hp] at hpoint
      obtain ⟨hmask, hor⟩ := hpoint
      dsimp only
      by_cases hi : i < s.queues
      · have hi32 : i < 32 := Nat.lt_of_lt_of_le hi h.queues_le
        rw [if_pos hi]
        by_cases hm : marked cpus i = true
        · rw [if_pos hm]
          have hmem : i ∈ woken := (hmask.marked i hi32).mp hm
          have hall : ∀ c ∈ woken, c = i := fun c hc => h.one c hc i hmem
          -- the bits before `i` are clear, so the lock has not been released
          have hheld : s.Held := by
            cases hor with
            | inl hb => exact hb.1
            | inr hf => exact absurd hmem (hf.2 i (Nat.le_refl i))
          have hf : (s.reschedule cpus i).Freed woken := hheld.freed_reschedule h.smp hall
          have hrest : ∀ j, i + 1 ≤ j → j ∉ woken := by
            intro j hj hjm
            have := hall j hjm
            omega
          obtain ⟨-, -, -, -, hqueues, hsys⟩ := reschedule_spec s cpus i
          refine ⟨(congrArg System.smp hsys).trans h.smp, hqueues ▸ h.queues_le,
            hqueues ▸ h.woken_lt, h.one, ?_⟩
          cases reschedule_point s cpus i with
          | inl hloop =>
            rw [hloop]
            exact ⟨hmask, .inr ⟨hf, hrest⟩⟩
          | inr hswitched =>
            rw [hswitched]
            exact ⟨hmask, hf, hrest⟩
        · rw [if_neg hm]
          have hmem : i ∉ woken := fun hmem => hm ((hmask.marked i hi32).mpr hmem)
          refine ⟨h.smp, h.queues_le, h.woken_lt, h.one, hmask, ?_⟩
          cases hor with
          | inl hb =>
            refine .inl ⟨⟨hb.1.lock, hb.1.releases, hb.1.rescheduled⟩, fun j hj => ?_⟩
            by_cases hji : j = i
            · rw [hji]
              exact hmem
            · exact hb.2 j (by omega)
          | inr hf =>
            refine .inr ⟨⟨hf.1.lock, hf.1.releases, hf.1.rescheduled⟩, fun j hj => ?_⟩
            exact hf.2 j (by omega)
      · rw [if_neg hi]
        refine ⟨h.smp, h.queues_le, h.woken_lt, h.one, ?_⟩
        cases hor with
        | inl hb =>
          obtain ⟨c, hc⟩ := List.exists_mem_of_ne_nil woken hmask.ne_nil
          have hlt := h.woken_lt c hc
          exact absurd hc (hb.2 c (by omega))
        | inr hf => exact ⟨hf.1.lock, hf.1.releases, hf.1.rescheduled⟩
    | switched cpus i =>
      rw [hp] at hpoint
      obtain ⟨hmask, hf, hrest⟩ := hpoint
      exact ⟨h.smp, h.queues_le, h.woken_lt, h.one, hmask,
        .inr ⟨⟨hf.lock, hf.releases, hf.rescheduled⟩, hrest⟩⟩
    | ret =>
      rw [hp] at hpoint
      refine ⟨h.smp, h.queues_le, h.woken_lt, h.one, ?_⟩
      rw [hp]
      exact hpoint

/-- The lock is released once, and every CPU is rescheduled. -/
theorem Inv.releasedOnce (h : s.Inv woken) : s.ReleasedOnce ∧ s.RescheduledAll woken := by
  have hpoint := h.point
  have hof (hf : s.Freed woken) : s.ReleasedOnce ∧ s.RescheduledAll woken :=
    ⟨⟨Nat.le_of_eq hf.releases, fun _ => hf.releases⟩, fun _ => hf.rescheduled⟩
  have hother (hle : s.releases ≤ 1) (hret : s.point ≠ .ret)
      (hsw : ∀ cpus i, s.point ≠ .switched cpus i) : s.ReleasedOnce ∧ s.RescheduledAll woken :=
    ⟨⟨hle, fun hr => absurd hr hret⟩,
      fun hor => absurd hor fun hor => hor.elim hret fun ⟨cpus, i, heq⟩ => hsw cpus i heq⟩
  cases hp : s.point with
  | start =>
    rw [hp] at hpoint
    have hzero := hpoint.1.releases
    exact hother (by omega) (by simp [hp]) (by simp [hp])
  | loop cpus i =>
    rw [hp] at hpoint
    refine hother ?_ (by simp [hp]) (by simp [hp])
    cases hpoint.2 with
    | inl hb =>
      have hzero := hb.1.releases
      omega
    | inr hf => exact Nat.le_of_eq hf.1.releases
  | switched cpus i =>
    rw [hp] at hpoint
    exact hof hpoint.2.1
  | ret =>
    rw [hp] at hpoint
    exact hof hpoint

/-- Only the loop reschedules, at a bit of the mask. -/
theorem point_of_reschedules (h : s.reschedules = some i) :
    ∃ cpus, s.point = .loop cpus i ∧ i < s.queues ∧ marked cpus i = true := by
  unfold reschedules at h
  split at h
  · rename_i cpus j hp
    split at h
    · rename_i hj
      cases h
      exact ⟨cpus, hp, hj⟩
    · cases h
  · cases h

/-- Only the owner releases the lock. -/
theorem Inv.ownsLock (h : s.Inv woken) (a : WakeupAction) : s.OwnsLock a := by
  cases a with
  | others k lock cpu => trivial
  | step =>
    intro i hi
    obtain ⟨cpus, hp, hlt, hm⟩ := point_of_reschedules hi
    have hpoint := h.point
    rw [hp] at hpoint
    have hmem := (hpoint.1.marked i (Nat.lt_of_lt_of_le hlt h.queues_le)).mp hm
    cases hpoint.2 with
    | inl hb => rw [hb.1.lock]
    | inr hf => exact absurd hmem (hf.2 i (Nat.le_refl i))

/-- The invariant gives what is claimed of every state. -/
theorem Inv.correct (h : s.Inv woken) : s.Correct woken := by
  intro as hvalid
  have hstep : ∀ (s : WakeupAll) (a : WakeupAction), s.Inv woken → s.CanAct a →
      (s.step a).Inv woken := fun s a hs ha => hs.step ha
  have halways : wakingAll.Always (Inv woken) s as :=
    TransitionSystem.Meets.always (fun s a hs ha _ => hstep s a hs ha) h hvalid
      (TransitionSystem.meets_true s as)
  exact ⟨halways.imp fun s hs => hs.releasedOnce,
    TransitionSystem.Valid.meets hstep (fun s a hs _ => hs.ownsLock a) h hvalid⟩

/-! ## Two CPUs, or one without a queue -/

/-- What is correct stays so. -/
theorem Correct.step (h : s.Correct woken) (ha : s.CanAct a) : (s.step a).Correct woken := by
  intro as hvalid
  have := h (a :: as) ⟨ha, hvalid⟩
  exact ⟨this.1.2, this.2.2⟩

/-- All CPUs are rescheduled. -/
theorem Correct.rescheduledAll (h : s.Correct woken) : s.RescheduledAll woken :=
  (h [] trivial).1.2

/-- Who reschedules a CPU owns the lock. -/
theorem Correct.owns (h : s.Correct woken) (ha : s.CanAct .step) (hp : s.point = .loop cpus i)
    (hi : i < s.queues) (hm : marked cpus i = true) : s.lock.owner = some s.self := by
  refine (h [.step] ⟨ha, trivial⟩).2.1 i ?_
  rw [reschedules, hp]
  exact if_pos ⟨hi, hm⟩

/-- The caller executes in the loop. -/
structure Looping (s : WakeupAll) (cpus : BitVec 32) (i : Nat) : Prop where
  point : s.point = .loop cpus i
  running : s.running s.cpu = some s.self

/-- The loop can go on. -/
theorem Looping.canAct (h : s.Looping cpus i) : s.CanAct .step := by
  refine ⟨h.running, ?_⟩
  rw [h.point]
  exact nofun

/-- An unmarked CPU is passed over. -/
theorem Looping.step_clear (h : s.Looping cpus i) (hi : i < s.queues)
    (hm : ¬marked cpus i = true) : s.step .step = { s with point := .loop cpus (i + 1) } := by
  simp only [WakeupAll.step, h.point]
  rw [if_pos hi, if_neg hm]

/-- A marked one is rescheduled. -/
theorem Looping.step_marked (h : s.Looping cpus i) (hi : i < s.queues)
    (hm : marked cpus i = true) : s.step .step = s.reschedule cpus i := by
  simp only [WakeupAll.step, h.point]
  rw [if_pos hi, if_pos hm]

/-- Without the lock no further CPU can be rescheduled. -/
theorem Correct.clear_of_not_owner {j : Nat} (h : s.Correct woken) (hloop : s.Looping cpus i)
    (howner : s.lock.owner ≠ some s.self) (hij : i ≤ j) (hj : j < s.queues) :
    ¬marked cpus j = true := by
  -- induction on the passes before the bit `j`
  obtain ⟨n, rfl⟩ := Nat.exists_eq_add_of_le hij
  induction n generalizing s i with
  | zero => exact fun hm => howner (h.owns hloop.canAct hloop.point hj hm)
  | succ n ih =>
    have hi : i < s.queues := by omega
    by_cases hm : marked cpus i = true
    · exact absurd (h.owns hloop.canAct hloop.point hi hm) howner
    · have hstep := hloop.step_clear hi hm
      have h' := h.step hloop.canAct
      rw [hstep] at h'
      have := ih h' ⟨rfl, hloop.running⟩ howner (by omega) (by
        show i + 1 + n < s.queues
        omega)
      rwa [show i + 1 + n = i + (n + 1) by omega] at this

/-- A caller that stays on its CPU is in the loop after a reschedule, and does not own
    the lock. -/
theorem looping_reschedule (hrun : s.running s.cpu = some s.self)
    (hnot : (s.reschedule cpus i).point ≠ .switched cpus i) :
    (s.reschedule cpus i).Looping cpus (i + 1) := by
  refine ⟨(reschedule_point s cpus i).resolve_right hnot, ?_⟩
  revert hnot
  simp only [reschedule]
  split
  · split
    · rename_i hself
      exact fun _ => hself
    · exact fun hnot => absurd rfl hnot
  · exact fun _ => hrun

/-- After a reschedule that releases the lock the rest of the mask is clear: it would be
    rescheduled without the lock, or after the caller has been switched out. -/
theorem Correct.clear_of_marked {c : Nat} (h : s.Correct woken) (hsmp : s.smp = true)
    (hheld : s.Held) (hloop : s.Looping cpus i) (hm : marked cpus i = true) (hic : i < c)
    (hc : c < s.queues) (hcw : c ∈ woken) : ¬marked cpus c = true := by
  have hstep := hloop.step_marked (show i < s.queues by omega) hm
  have h' := h.step hloop.canAct
  rw [hstep] at h'
  obtain ⟨hlock, -, hrescheduled, hself, hqueues, -⟩ := reschedule_spec s cpus i
  have howner : (s.reschedule cpus i).lock.owner ≠ some (s.reschedule cpus i).self := by
    rw [hlock, hheld.lock_release hsmp]
    exact nofun
  have hnot : (s.reschedule cpus i).point ≠ .switched cpus i := by
    intro hsw
    have hmem := h'.rescheduledAll (.inr ⟨cpus, i, hsw⟩) c hcw
    rw [hrescheduled, hheld.rescheduled, List.mem_singleton] at hmem
    omega
  exact h'.clear_of_not_owner (looping_reschedule hloop.running hnot) howner hic (hqueues ▸ hc)

/-- No two CPUs are in the mask. -/
theorem Correct.clear_of_held {j c : Nat} (h : s.Correct woken) (hsmp : s.smp = true)
    (hheld : s.Held) (hloop : s.Looping cpus i) (hij : i ≤ j) (hm : marked cpus j = true)
    (hjc : j < c) (hc : c < s.queues) (hcw : c ∈ woken) : ¬marked cpus c = true := by
  obtain ⟨n, rfl⟩ := Nat.exists_eq_add_of_le hij
  induction n generalizing s i with
  | zero => exact h.clear_of_marked hsmp hheld hloop hm hjc hc hcw
  | succ n ih =>
    by_cases hmi : marked cpus i = true
    · exact h.clear_of_marked hsmp hheld hloop hmi (by omega) hc hcw
    · have hstep := hloop.step_clear (show i < s.queues by omega) hmi
      have h' := h.step hloop.canAct
      rw [hstep] at h'
      have heq : i + 1 + n = i + (n + 1) := by omega
      exact ih h' hsmp ⟨hheld.lock, hheld.releases, hheld.rescheduled⟩ ⟨rfl, hloop.running⟩ hc
        (by omega) (heq ▸ hm) (heq ▸ hjc)

/-- The loop reschedules no CPU from `queues` on, and then it is over. -/
theorem Correct.lt_of_looping {c : Nat} (h : s.Correct woken) (hloop : s.Looping cpus i)
    (hcw : c ∈ woken) (hc : c ∉ s.rescheduled) : c < s.queues := by
  by_contra hge
  -- induction on the passes that are left
  obtain ⟨n, hn⟩ : ∃ n, n = s.queues - i := ⟨_, rfl⟩
  induction n generalizing s i with
  | zero =>
    have hi : ¬i < s.queues := by omega
    have h' := h.step hloop.canAct
    have hstep : s.step .step = { s with point := .ret } := by
      simp only [WakeupAll.step, hloop.point]
      rw [if_neg hi]
    rw [hstep] at h'
    exact hc (h'.rescheduledAll (.inl rfl) c hcw)
  | succ n ih =>
    have hi : i < s.queues := by omega
    have h' := h.step hloop.canAct
    by_cases hm : marked cpus i = true
    · rw [hloop.step_marked hi hm] at h'
      obtain ⟨-, -, hrescheduled, -, hqueues, -⟩ := reschedule_spec s cpus i
      have hc' : c ∉ (s.reschedule cpus i).rescheduled := by
        rw [hrescheduled, List.mem_cons, not_or]
        exact ⟨by omega, hc⟩
      have hnot : (s.reschedule cpus i).point ≠ .switched cpus i := fun hsw =>
        hc' (h'.rescheduledAll (.inr ⟨cpus, i, hsw⟩) c hcw)
      exact ih h' (looping_reschedule hloop.running hnot) hc' (by omega) (by omega)
    · rw [hloop.step_clear hi hm] at h'
      exact ih h' ⟨rfl, hloop.running⟩ hc hge (by
        show n = s.queues - (i + 1)
        omega)

/-- The first step of a call finds the threads and goes to the loop. -/
theorem Begins.step_start (h : s.Begins) (hne : (s.sem s.queue).queue ≠ []) :
    ∃ k cpus, s.step .step = { s with toKernel := k, point := .loop cpus 0 } ∧
      k.smp = true ∧ k.running s.cpu = some s.self ∧ Mask s.wokenCpus cpus := by
  obtain ⟨hsys, hrunning, -⟩ := Kernel.wakeAll_spec (k := s.toKernel) (s := s.queue) (c := s.cpu)
    (t := s.self) (s.sem s.queue).queue 0 rfl
  refine ⟨_, _, ?_, (congrArg System.smp hsys).trans h.smp, hrunning h.running,
    mask_of_waiting hne⟩
  simp only [WakeupAll.step, h.point]
  rw [if_neg hne, if_pos ((congrArg System.preemptive hsys).trans h.preemptive)]

/-- A call with threads to wake up gets to the loop, with the lock still held. -/
theorem Begins.looping (h : s.Begins) (hcorrect : s.Correct s.wokenCpus)
    (hne : s.wokenCpus ≠ []) : ∃ (s' : WakeupAll) (cpus : BitVec 32), s'.Correct s.wokenCpus ∧
      s'.smp = true ∧ s'.Held ∧ s'.Looping cpus 0 ∧ s'.queues = s.queues ∧
      Mask s.wokenCpus cpus := by
  have hne' : (s.sem s.queue).queue ≠ [] := fun hnil => hne (List.map_eq_nil_iff.mpr hnil)
  obtain ⟨k, cpus, hstep, hsmp, hrunning, hmask⟩ := h.step_start hne'
  have hact : s.CanAct .step := ⟨h.running, by simp [h.point]⟩
  have h' := hcorrect.step hact
  rw [hstep] at h'
  exact ⟨_, cpus, h', hsmp, ⟨h.lock, h.releases, h.rescheduled⟩, ⟨rfl, hrunning⟩, rfl, hmask⟩

/-- Every CPU of a woken thread has a queue. -/
theorem Begins.lt_of_correct (h : s.Begins) (hcorrect : s.Correct s.wokenCpus) {c : Nat}
    (hc : c ∈ s.wokenCpus) : c < s.queues := by
  obtain ⟨s', cpus, h', -, hheld, hloop, hqueues, -⟩ :=
    h.looping hcorrect (List.ne_nil_of_mem hc)
  rw [← hqueues]
  exact h'.lt_of_looping hloop hc (by simp [hheld.rescheduled])

/-- There are no two CPUs of woken threads. -/
theorem Begins.one_of_correct (h : s.Begins) (hcorrect : s.Correct s.wokenCpus) {c d : Nat}
    (hc : c ∈ s.wokenCpus) (hd : d ∈ s.wokenCpus) : ¬c < d := by
  intro hcd
  obtain ⟨s', cpus, h', hsmp, hheld, hloop, hqueues, hmask⟩ :=
    h.looping hcorrect (List.ne_nil_of_mem hc)
  have hlt (e : Nat) (he : e ∈ s.wokenCpus) : marked cpus e = true :=
    (hmask.marked e (Nat.lt_of_lt_of_le (h.lt_of_correct hcorrect he) h.queues_le)).mpr he
  exact h'.clear_of_held hsmp hheld hloop (Nat.zero_le c) (hlt c hc) hcd
    (hqueues ▸ h.lt_of_correct hcorrect hd) hd (hlt d hd)

/-! ## How long a call takes -/

/-- What a step of the caller brings down. -/
def remaining (s : WakeupAll) : Nat :=
  match s.point with
  | .start => 2 * s.queues + 2
  | .loop _ i => 2 * (s.queues - i) + 1
  | .switched _ i => 2 * (s.queues - (i + 1)) + 2
  | .ret => 0

/-- The caller gets nearer to its return. -/
theorem remaining_step (hret : s.point ≠ .ret) :
    (s.step .step).remaining < s.remaining := by
  cases hp : s.point with
  | start =>
    -- nobody waits: the call is over
    by_cases hnil : (s.sem s.queue).queue = []
    · simp only [WakeupAll.step, remaining, hp, if_pos hnil]
      exact Nat.succ_pos _
    · -- everyone waiting is resumed in one go, then the CPUs are visited
      by_cases hpre : (s.wakeAll s.queue 0 (s.sem s.queue).queue.length).1.preemptive = true
      · simp only [WakeupAll.step, remaining, hp, if_neg hnil, if_pos hpre]
        exact Nat.lt_succ_self _
      · simp only [WakeupAll.step, remaining, hp, if_neg hnil, if_neg hpre]
        exact Nat.succ_pos _
  | loop cpus i =>
    by_cases hi : i < s.queues
    · -- the CPU at i is in the set, and the call gives up the lock there at most once
      by_cases hm : marked cpus i = true
      · have hstep : s.step .step = s.reschedule cpus i := by
          simp only [WakeupAll.step, hp]
          rw [if_pos hi, if_pos hm]
        obtain ⟨-, -, -, -, hqueues, -⟩ := reschedule_spec s cpus i
        rw [hstep]
        cases reschedule_point s cpus i with
        | inl hloop =>
          simp only [remaining, hloop, hp, hqueues]
          omega
        | inr hswitched =>
          simp only [remaining, hswitched, hp, hqueues]
          omega
      · -- the CPU at i is passed over
        simp only [WakeupAll.step, remaining, hp, if_pos hi, if_neg hm]
        omega
    · simp only [WakeupAll.step, remaining, hp, if_neg hi]
      exact Nat.succ_pos _
  | switched cpus i =>
    simp only [WakeupAll.step, remaining, hp]
    omega
  | ret => exact absurd hp hret

/-- The caller's steps in a run. -/
def callerSteps : List WakeupAction → Nat
  | [] => 0
  | .step :: as => callerSteps as + 1
  | .others .. :: as => callerSteps as

/-- The caller takes so many steps at most. -/
theorem callerSteps_le {as : List WakeupAction} (hvalid : wakingAll.Valid s as) :
    callerSteps as ≤ s.remaining := by
  induction as generalizing s with
  | nil => exact Nat.zero_le _
  | cons a as ih =>
    have hrest : callerSteps as ≤ (s.step a).remaining := ih hvalid.2
    cases a with
    | step =>
      have hlt := remaining_step (s := s) hvalid.1.2
      show callerSteps as + 1 ≤ s.remaining
      omega
    | others k lock cpu => exact hrest

end WakeupAll

open WakeupAll

/-- The CPU 0 calls `wakeup_all()` for the threads 2 and 3 of the CPUs 1 and 2. -/
def threeCpus : WakeupAll where
  priority t := if t = 0 then 1 else 2
  sem _ := { protocol := .condition, value := -2, queue := [2, 3] }
  store _ _ := 0
  preemptive := true
  smp := true
  cores := 3
  idle c := 10 + c
  core t := if t = 2 then 1 else if t = 3 then 2 else 0
  state t := if t = 0 then some .running else some .waiting
  sched c := if c = 0 then { chosen := some 0 } else { chosen := some (10 + c) }
  queues := 3
  queue := 0
  self := 0
  cpu := 0
  lock := { owner := some 0, level := 1 }

/-- The loop of the example begins. -/
theorem threeCpus_begins : threeCpus.Begins where
  smp := rfl
  preemptive := rfl
  queues_le := by decide
  running := rfl
  lock := rfl
  point := rfl
  releases := rfl
  rescheduled := rfl

end Epos
