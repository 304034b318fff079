import Epos.Spec.MachineCorrect

/-!
# Who owns the lock

`sleep()`, `wakeup()` and `dispatch()` release `_lock` ("implicit end_atomic()").
`Semaphore::p` and `Semaphore::v` end there; the real-time semaphores go on and end
with an `end_atomic()` of their own, SRP and MSRP after another `updateCeiling()`.
So the lock is used by its owner as long as no `v()` of a real-time semaphore finds
a thread that waits (`lockOwned_of_noneWoken`): a thread that sleeps in such a `p()`
is then never switched to again.

The invariant relates the lock to the code that the threads still have to execute:
the owner has as many releases to make as the lock has levels, and no other thread
that may run has any.
-/

namespace Epos

/-! ## Releases to make -/

def Instr.isRelease : Instr → Bool
  | .release => true
  | _ => false

/-- The instruction writes a `_value`, `_owner` or `_priority` or a ceiling. -/
def Instr.writes : Instr → Bool
  | .own _ | .handOff _ | .p _ _ | .v _ _ | .updateCeiling _ => true
  | _ => false

/-- The instruction reads or writes semaphores, ceilings, priorities or scheduling
    lists. -/
def Instr.guarded : Instr → Bool
  | .setPriority _ _ | .disown _ | .reschedule => true
  | i => i.writes

/-- How often the lock has to be held where the code begins, for every release in it
    to be one of its owner. -/
def held : List Instr → Nat
  | [] => 0
  | .acquire :: code => held code - 1
  | .release :: code | .reschedule :: code => held code + 1
  | .p _ locked :: code | .v _ locked :: code => if locked then held code else held code + 1
  | _ :: code => held code

/-- `locked` is passed as the class of the semaphore does. -/
def Instr.Passes (realTime : Sid → Bool) : Instr → Prop
  | .p s locked | .v s locked => locked = realTime s
  | _ => True

/-- Every acquisition has its release, and what is guarded stands between two such. -/
def Bracketed (realTime : Sid → Bool) : List Instr → Prop
  | [] => True
  | i :: code =>
    (i = .acquire → 0 < held code) ∧ (i.guarded → 0 < held (i :: code)) ∧
      i.Passes realTime ∧ Bracketed realTime code

section Code

attribute [local simp] held Bracketed Instr.guarded Instr.writes Instr.Passes

variable {realTime : Sid → Bool} {code rest : List Instr} {k : Kernel} {c : Nat} {s : Sid}
  {t n : Tid}

/-- The rest of a bracketed code is bracketed. -/
theorem Bracketed.tail {i : Instr} (h : Bracketed realTime (i :: code)) :
    Bracketed realTime code := h.2.2.2

/-- Code without a context switch. -/
def Plain (code : List Instr) : Prop := ∀ n, .switchContext n ∉ code

/-- Plain codes one after the other. -/
theorem Plain.append (h : Plain code) (h' : Plain rest) : Plain (code ++ rest) := by
  intro n hn
  cases List.mem_append.mp hn with
  | inl hn => exact h n hn
  | inr hn => exact h' n hn

/-- The rest of a plain code is plain. -/
theorem Plain.tail {i : Instr} (h : Plain (i :: code)) : Plain code :=
  fun n hn => h n (List.mem_cons_of_mem _ hn)

/-- Code that leaves the lock as it finds it. -/
structure Neutral (code : List Instr) : Prop where
  plain : Plain code
  held : ∀ rest, held (code ++ rest) = held rest
  bracketed : ∀ realTime rest, Bracketed realTime rest → Bracketed realTime (code ++ rest)

/-- Code that releases the lock once. -/
def Releasing (code : List Instr) : Prop :=
  ∀ rest, held (code ++ rest) = held rest + 1 ∧
    ∀ realTime, Bracketed realTime rest → Bracketed realTime (code ++ rest)

/-- No instruction, no change of the lock. -/
theorem neutral_nil : Neutral [] where
  plain _ := List.not_mem_nil
  held _ := rfl
  bracketed _ _ h := h

/-- `Thread::priority` releases what it acquires. -/
theorem neutral_setPriority (u : Tid) (p : Int) : Neutral (Thread.setPriority u p) where
  plain n := by simp [Thread.setPriority, Thread.lock, Thread.unlock]
  held rest := by simp [Thread.setPriority, Thread.lock, Thread.unlock]
  bracketed realTime rest h := by simp [Thread.setPriority, Thread.lock, Thread.unlock, h]

/-- The handler of the rescheduling interrupt releases what it acquires. -/
theorem neutral_rescheduler : Neutral Thread.rescheduler where
  plain n := by simp [Thread.rescheduler, Thread.lock]
  held rest := by simp [Thread.rescheduler, Thread.lock]
  bracketed realTime rest h := by simp [Thread.rescheduler, Thread.lock, h]

/-- `unlock()` switches no context while it holds the lock. -/
theorem plain_unlock : Plain Thread.unlock := fun n => by simp [Thread.unlock]

/-- `unlock()` releases the lock once. -/
theorem releasing_unlock : Releasing Thread.unlock := by
  intro rest
  constructor
  · simp [Thread.unlock]
  · intro realTime h
    simp [Thread.unlock, h]

/-- A switch releases the lock once, before it. -/
theorem releasing_switch (n : Tid) : Releasing [.release, .switchContext n, .intEnable] := by
  intro rest
  constructor
  · simp
  · intro realTime h
    simp [h]

/-- The code behind `dispatch()` releases the lock once. -/
theorem releasing_switchCode (k : Kernel) (c : Nat) (t : Tid) : Releasing (k.switchCode c t) := by
  unfold Kernel.switchCode
  split
  · exact releasing_unlock
  · split
    · exact releasing_unlock
    · exact releasing_switch _

/-- `take` leaves the lock as it was. -/
theorem neutral_take (σ : Sync) (s : Sid) (u : Tid) : Neutral (SemaphoreRT.take σ s u).2 := by
  unfold SemaphoreRT.take
  dsimp only
  split
  · exact neutral_setPriority _ _
  · exact neutral_setPriority _ _
  · exact neutral_nil

/-- `contend` leaves the lock as it was. -/
theorem neutral_contend (σ : Sync) (s : Sid) (u t : Tid) :
    Neutral (SemaphoreRT.contend σ s u t) := by
  unfold SemaphoreRT.contend
  split
  · split
    · exact neutral_setPriority _ _
    · exact neutral_nil
  · split
    · exact neutral_setPriority _ _
    · exact neutral_nil
  · exact neutral_nil

/-- `own` leaves the lock as it was. -/
theorem neutral_own (σ : Sync) (s : Sid) (t : Tid) : Neutral (SemaphoreRT.own σ s t).2 := by
  unfold SemaphoreRT.own
  split
  · exact neutral_take _ _ _
  · exact neutral_contend _ _ _ _

/-- `handOff` leaves the lock as it was. -/
theorem neutral_handOff (σ : Sync) (s : Sid) : Neutral (SemaphoreRT.handOff σ s).2 := by
  unfold SemaphoreRT.handOff
  split
  · exact neutral_take _ _ _
  · exact neutral_nil

/-- The hand-over needs the lock that `v()` has taken. -/
theorem disown_held (σ : Sync) (hpos : 0 < held rest) :
    held (SemaphoreRT.disown σ s t ++ rest) = held rest ∧
      (Bracketed realTime rest → Bracketed realTime (SemaphoreRT.disown σ s t ++ rest)) := by
  unfold SemaphoreRT.disown
  split
  · rw [List.append_assoc]
    have hset := neutral_setPriority t (σ.sem s).priority
    refine ⟨hset.held _, fun h => hset.bracketed realTime _ ?_⟩
    exact ⟨nofun, fun _ => hpos, trivial, h⟩
  · exact ⟨rfl, fun h => h⟩

/-- `disown` is plain. -/
theorem plain_disown (σ : Sync) (s : Sid) (t : Tid) : Plain (SemaphoreRT.disown σ s t) := by
  unfold SemaphoreRT.disown
  split
  · exact (neutral_setPriority _ _).plain.append fun n => by simp
  · exact neutral_nil.plain

/-- The code of a call begins and ends without the lock. -/
theorem atomic_bodyP {k : Protocol} (hk : k.resource = realTime s) :
    held (k.atomic (k.bodyP s)) = 0 ∧ Plain (k.atomic (k.bodyP s)) ∧
      Bracketed realTime (k.atomic (k.bodyP s)) := by
  unfold Plain
  cases k <;>
    simp [Protocol.atomic, Protocol.bodyP, Protocol.resource, Thread.lock,
      Thread.unlock] at hk ⊢ <;>
    exact hk

/-- The atomic part of `v()` releases what it acquires. -/
theorem atomic_bodyV {k : Protocol} (hk : k.resource = realTime s) :
    held (k.atomic (k.bodyV s)) = 0 ∧ Plain (k.atomic (k.bodyV s)) ∧
      Bracketed realTime (k.atomic (k.bodyV s)) := by
  unfold Plain
  cases k <;>
    simp [Protocol.atomic, Protocol.bodyV, Protocol.resource, Thread.lock,
      Thread.unlock] at hk ⊢ <;>
    exact hk

end Code

/-! ## Instructions of a running thread -/

namespace Kernel

variable {k k' : Kernel} {c : Nat} {s : Sid} {t u n : Tid} {code rest : List Instr} {i : Instr}

def realTime (k : Kernel) (s : Sid) : Bool := (k.sem s).protocol.resource

/-- `t` sleeps in the `p()` of a real-time semaphore: it still has an `end_atomic()`
    to execute, but the lock has been released for it. -/
def Stranded (k : Kernel) (t : Tid) : Prop := ∃ s, k.realTime s ∧ t ∈ (k.sem s).queue

/-- The code goes through the rest of a `dispatch()` to `n`. -/
def SwitchesTo (code : List Instr) (n : Tid) : Prop :=
  ∃ rest, Plain rest ∧
    (code = .switchContext n :: .intEnable :: rest ∨
      code = .release :: .switchContext n :: .intEnable :: rest)

/-- On the core `c`, `t` runs, or it is on its way to the thread that does. -/
def RunsOr (k : Kernel) (c : Nat) (t : Tid) (code : List Instr) : Prop :=
  (k.running c = some t ∧ Plain code) ∨
    ∃ n, n ≠ t ∧ k.running c = some n ∧ SwitchesTo code n

/-- A running thread is not stranded. -/
theorem WellFormed.not_stranded (h : k.WellFormed) (hr : k.running c = some t) :
    ¬k.Stranded t :=
  fun ⟨_, _, hs⟩ => h.toWaits.not_schedulable hs (.inl (h.state_of_running hr).1)

/-- After a switch the thread runs, or it is stranded before its last release. -/
theorem runsOr_switchCode (h : (k.running c).isSome) (hplain : Plain rest) :
    k.RunsOr c t (k.switchCode c t ++ rest) := by
  obtain ⟨n, hn⟩ := Option.isSome_iff_exists.mp h
  by_cases hnt : t = n
  · refine .inl ⟨hnt ▸ hn, ?_⟩
    simp only [switchCode, hn, if_pos hnt]
    exact plain_unlock.append hplain
  · refine .inr ⟨n, Ne.symm hnt, hn, rest, hplain, .inr ?_⟩
    simp only [switchCode, hn, if_neg hnt]
    rfl

/-- What `t`, running on the core `c`, makes of the kernel `k` with the instruction
    `i`: it either keeps the brackets of its code or is stranded with one release too
    many. -/
structure Runs (k : Kernel) (c : Nat) (t : Tid) (i : Instr) (rest : List Instr) (k' : Kernel)
    (code : List Instr) : Prop where
  wellFormed : k'.WellFormed
  toSystem : k'.toSystem = k.toSystem
  realTime : k'.realTime = k.realTime
  stranded : ∀ u, u ≠ t → (k'.Stranded u ↔ k.Stranded u)
  running : ∀ c', c' ≠ c → c' < k.cores → k'.running c' = k.running c'
  runsOr : k'.RunsOr c t code
  code : (¬k'.Stranded t ∧ held code = held (i :: rest) ∧ Bracketed k.realTime code) ∨
    (k'.Stranded t ∧ ∃ rest', code = .release :: rest' ∧ 0 < held rest' ∧
      held rest' = held (i :: rest))

/-- An instruction that leaves the scheduling lists and the queues alone. -/
theorem Runs.of_quiet (h : k.WellFormed) (hr : k.running c = some t)
    (hsched : k'.sched = k.sched) (hstate : k'.state = k.state)
    (hsys : k'.toSystem = k.toSystem) (hjoin : k'.joining = k.joining)
    (hcall : ∀ x, x ≠ t → k'.call x = k.call x)
    (hprot : ∀ s, (k'.sem s).protocol = (k.sem s).protocol)
    (hqueue : ∀ s, (k'.sem s).queue = (k.sem s).queue)
    (hplain : Plain code) (hheld : held code = held (i :: rest))
    (hbr : Bracketed k.realTime code) : Runs k c t i rest k' code := by
  have hrt : k'.realTime = k.realTime := funext fun s => by simp only [Kernel.realTime, hprot]
  have hstr (x : Tid) : k'.Stranded x ↔ k.Stranded x := by
    unfold Stranded
    rw [hrt]
    simp only [hqueue]
  have hrun : k'.running = k.running := funext fun c => by simp only [Kernel.running, hsched]
  constructor
  case wellFormed =>
    exact h.call (.inl (h.state_of_running hr).1) hsched hstate hsys hjoin hcall
      fun s => by rw [hqueue]
  case toSystem => exact hsys
  case realTime => exact hrt
  case stranded => exact fun x _ => hstr x
  case running => exact fun _ _ _ => by rw [hrun]
  case runsOr => exact .inl ⟨hrun ▸ hr, hplain⟩
  case code => exact .inl ⟨(hstr t).not.mpr (h.not_stranded hr), hheld, hbr⟩

/-- Changes of the semaphores change nobody who runs. -/
theorem Runs.of_syncOnly (h : k.WellFormed) (hr : k.running c = some t) (hs : SyncOnly k k')
    (hplain : Plain code) (hheld : held code = held (i :: rest))
    (hbr : Bracketed k.realTime code) : Runs k c t i rest k' code :=
  .of_quiet h hr hs.sched hs.state hs.toSystem hs.joining (fun _ _ => by rw [hs.call])
    hs.protocol hs.queue hplain hheld hbr

/-! ### The counter -/

/-- A `p()` that sleeps. -/
theorem runs_sleep (h : k.WellFormed) (hr : k.running c = some t) {locked : Bool}
    (hidle : t ≠ k.idle c) (hplain : Plain rest)
    (hbr : Bracketed k.realTime (.p s locked :: rest)) (hsleeps : (k.sem s).value < 1) :
    Runs k c t (.p s locked) rest (Instr.sleep k t s)
      ((Instr.sleep k t s).switchCode c t ++ rest) := by
  have hc : k.core t = c := (h.state_of_running hr).2
  subst hc
  obtain ⟨-, hpos, hlocked, hrest⟩ := hbr
  replace hpos := hpos rfl
  have hnq := (h.not_waiting (.inl (h.state_of_running hr).1)).1
  -- the kernel after the caller has joined the queue and before it leaves the core
  let k₁ : Kernel :=
    { k with
      toSync := (SemaphoreTemplate.p k.toSync s t).1
      call := Function.update k.call t (some (.p s)) }
  have hsem (s' : Sid) : (k₁.sem s').queue.Perm
      (if s' = s then t :: (k.sem s').queue else (k.sem s').queue) := by
    show (((SemaphoreTemplate.p k.toSync s t).1).sem s').queue.Perm _
    rw [Sync.template_p_eq]
    by_cases hs : s' = s
    · subst hs
      simp only [Sync.modify_sem, Function.update_self, if_pos hsleeps, if_true]
      split
      · exact List.perm_append_comm
      · exact List.perm_insertRank _ _ _
    · simp [hs]
  have hrt : k₁.realTime = k.realTime := by
    funext s'
    show ((((SemaphoreTemplate.p k.toSync s t).1).sem s').protocol).resource = _
    rw [Sync.template_p_eq]
    by_cases hs : s' = s
    · subst hs
      simp [Kernel.realTime]
    · simp [hs, Kernel.realTime]
  have hp : k₁.Placed := h.toPlaced.congr rfl rfl rfl
  have hframe : Frame k₁ (Instr.sleep k t s) := frame_leave k₁ t .waiting
  -- to be stranded means to wait in the queue of a real-time semaphore
  have hstr (u : Tid) : (Instr.sleep k t s).Stranded u ↔
      ∃ s', k.realTime s' ∧ u ∈ (k₁.sem s').queue := by
    unfold Stranded Kernel.realTime
    rw [hframe.toSync]
    show (∃ s', k₁.realTime s' ∧ _) ↔ _
    rw [hrt]
    rfl
  have hwf : (Instr.sleep k t s).WellFormed :=
    h.asleep hr hidle (show k₁.sched = k.sched from rfl) rfl rfl rfl rfl hsem
  -- another thread is chosen, so there is a switch
  have hne : (Instr.sleep k t s).running (k.core t) ≠ some t :=
    hp.leave_running_ne (show k₁.running (k₁.core t) = some t from hr) hidle (by simp)
  have hlt : k.core t < k.cores := h.lt_of_running hr
  have hsome := hwf.isSome (k.core t) (hframe.toSystem ▸ hlt)
  obtain ⟨hheld, hbr⟩ := releasing_switchCode (Instr.sleep k t s) (k.core t) t rest
  constructor
  case wellFormed => exact hwf
  case toSystem => exact hframe.toSystem
  case realTime =>
    funext s'
    show (((Instr.sleep k t s).toSync).sem s').protocol.resource = _
    rw [hframe.toSync]
    exact congrFun hrt s'
  case stranded =>
    intro u hu
    rw [hstr]
    constructor
    · intro ⟨s', hs', hmem⟩
      refine ⟨s', hs', ?_⟩
      rw [(hsem s').mem_iff] at hmem
      split at hmem
      · exact (List.mem_cons.mp hmem).resolve_left hu
      · exact hmem
    · intro ⟨s', hs', hmem⟩
      refine ⟨s', hs', (hsem s').mem_iff.mpr ?_⟩
      split
      · exact List.mem_cons_of_mem _ hmem
      · exact hmem
  case running => exact fun c' hc' _ => leave_running_of_ne (k := k₁) hc'
  case runsOr => exact runsOr_switchCode hsome hplain
  case code =>
    have hmem : t ∈ (k₁.sem s).queue := (hsem s).mem_iff.mpr (by simp)
    cases hl : locked with
    -- asleep under the lock: what is left of the code releases once too often
    | true =>
      rw [hl] at hlocked hpos
      obtain ⟨n, hn⟩ := Option.isSome_iff_exists.mp hsome
      have hnt : t ≠ n := fun heq => hne (heq ▸ hn)
      refine .inr ⟨(hstr t).mpr ⟨s, hlocked.symm, hmem⟩, .switchContext n :: .intEnable :: rest,
        ?_, hpos, rfl⟩
      simp only [switchCode, hn, if_neg hnt]
      rfl
    -- the lock is released before the switch, as for a thread that is not stranded
    | false =>
      rw [hl] at hlocked hpos
      refine .inl ⟨fun hs => ?_, hheld, hbr _ hrest⟩
      obtain ⟨s', hs', hmem'⟩ := (hstr t).mp hs
      rw [(hsem s').mem_iff] at hmem'
      split at hmem'
      · rename_i heq
        rw [heq, ← hlocked] at hs'
        cases hs'
      · exact hnq s' hmem'

/-- A `v()` that wakes `u` up, from the queue of a semaphore that is not real-time. -/
theorem runs_wake (h : k.WellFormed) (hr : k.running c = some t) (hplain : Plain rest)
    (hbr : Bracketed k.realTime (.v s false :: rest))
    (hwoken : (SemaphoreTemplate.v k.toSync s).2 = some u) :
    Runs k c t (.v s false) rest
      (({ k with toSync := (SemaphoreTemplate.v k.toSync s).1 } : Kernel).enter c u)
      ((({ k with toSync := (SemaphoreTemplate.v k.toSync s).1 } : Kernel).enter c u).switchCode
        c t ++ rest) := by
  obtain ⟨-, -, hlocked, hrest⟩ := hbr
  let k₁ : Kernel := { k with toSync := (SemaphoreTemplate.v k.toSync s).1 }
  have hsem (s' : Sid) : (k₁.sem s').protocol = (k.sem s').protocol ∧
      (s' ≠ s → (k₁.sem s').queue = (k.sem s').queue) := by
    show ((((SemaphoreTemplate.v k.toSync s).1).sem s').protocol) = _ ∧
      (_ → (((SemaphoreTemplate.v k.toSync s).1).sem s').queue = _)
    rw [Sync.template_v_eq]
    by_cases hs : s' = s
    · subst hs
      simp
    · simp [hs]
  have hq : (k.sem s).queue = u :: (k₁.sem s).queue := by
    show _ = u :: ((SemaphoreTemplate.v k.toSync s).1.sem s).queue
    rw [Sync.template_v_eq] at hwoken ⊢
    simp only [Sync.modify_sem, Function.update_self]
    split at hwoken
    · rename_i hneg
      rw [if_pos hneg]
      exact List.eq_cons_of_mem_head? hwoken
    · cases hwoken
  have hrt : k₁.realTime = k.realTime := funext fun s' => by
    simp only [Kernel.realTime, (hsem s').1]
  obtain ⟨hwf, hns, hlt, hnq, hnj⟩ :=
    h.dequeued hr hq (fun s' hs => (hsem s').2 hs) rfl rfl rfl rfl fun _ _ => rfl
  have hframe : Frame k₁ (k₁.enter c u) := frame_enter k₁ c u
  -- `s` is not real-time, so leaving its queue strands or frees nobody
  have hstr (x : Tid) : (k₁.enter c u).Stranded x ↔ k.Stranded x := by
    unfold Stranded Kernel.realTime
    rw [hframe.toSync]
    show (∃ s', k₁.realTime s' ∧ _) ↔ ∃ s', k.realTime s' ∧ _
    rw [hrt]
    constructor
    all_goals
      intro ⟨s', hs', hmem⟩
      refine ⟨s', hs', ?_⟩
      have hne : s' ≠ s := by
        intro heq
        rw [heq, ← hlocked] at hs'
        cases hs'
    · rwa [← (hsem s').2 hne]
    · rwa [(hsem s').2 hne]
  have hent : (k₁.enter c u).WellFormed := hwf.enter hns hlt hnq hnj
  obtain ⟨hheld, hbr⟩ := releasing_switchCode (k₁.enter c u) c t rest
  constructor
  case wellFormed => exact hent
  case toSystem => exact hframe.toSystem
  case realTime =>
    funext s'
    show ((k₁.enter c u).sem s').protocol.resource = _
    rw [hframe.toSync]
    exact congrFun hrt s'
  case stranded => exact fun x _ => hstr x
  case running => exact fun c' hc' _ => hwf.toPlaced.enter_running_of_ne hlt hc'
  case runsOr =>
    have hsome := hent.isSome c (hframe.toSystem ▸ h.lt_of_running hr)
    exact runsOr_switchCode hsome hplain
  case code => exact .inl ⟨(hstr t).not.mpr (h.not_stranded hr), hheld, hbr _ hrest⟩

/-- After `reschedule()` the thread goes on or is switched away from. -/
theorem runs_reschedule (h : k.WellFormed) (hr : k.running c = some t) (hplain : Plain rest)
    (hbr : Bracketed k.realTime (.reschedule :: rest)) :
    Runs k c t .reschedule rest (k.reschedule c) ((k.reschedule c).switchCode c t ++ rest) := by
  have hframe := frame_reschedule k c
  have hstr (x : Tid) : (k.reschedule c).Stranded x ↔ k.Stranded x := by
    unfold Stranded Kernel.realTime
    rw [hframe.toSync]
  obtain ⟨hheld, hbr'⟩ := releasing_switchCode (k.reschedule c) c t rest
  constructor
  case wellFormed => exact h.reschedule
  case toSystem => exact hframe.toSystem
  case realTime =>
    funext s'
    show ((k.reschedule c).sem s').protocol.resource = _
    rw [hframe.toSync]
    rfl
  case stranded => exact fun x _ => hstr x
  case running => exact fun c' hc' _ => reschedule_running_of_ne hc'
  case runsOr =>
    have hsome := h.reschedule.isSome c (hframe.toSystem ▸ h.lt_of_running hr)
    exact runsOr_switchCode hsome hplain
  case code => exact .inl ⟨(hstr t).not.mpr (h.not_stranded hr), hheld, hbr' _ hbr.tail⟩

/-! ### All instructions -/

/-- A `v()` of a real-time semaphore finds nobody waiting. -/
def FindsNone (k : Kernel) : Instr → Prop
  | .v s true => 0 ≤ (k.sem s).value
  | _ => True

/-- After any instruction but those of the lock the thread goes on or is switched away from. -/
theorem runs_exec (h : k.WellFormed) (hr : k.running c = some t)
    (hidle : ∀ s locked, i = .p s locked → t ≠ k.idle c) (hnone : k.FindsNone i)
    (hacq : i ≠ .acquire) (hrel : i ≠ .release) (hplain : Plain (i :: rest))
    (hbr : Bracketed k.realTime (i :: rest)) :
    Runs k c t i rest (i.exec k c t).1 ((i.exec k c t).2 ++ rest) := by
  have hrest := hbr.tail
  replace hplain := hplain.tail
  cases i with
  | acquire => exact absurd rfl hacq
  | release => exact absurd rfl hrel
  | intDisable | intEnable | switchContext =>
    exact .of_syncOnly h hr (.refl k) hplain rfl hrest
  | setPriority u prio =>
    exact .of_syncOnly h hr ⟨rfl, rfl, rfl, rfl, rfl, fun _ => rfl, fun _ => rfl⟩ hplain rfl
      hrest
  | own s =>
    have hown := neutral_own k.toSync s t
    exact .of_syncOnly h hr (.of_sameQueues (SemaphoreRT.sameQueues_own k.toSync s t))
      (hown.plain.append hplain) (hown.held rest) (hown.bracketed _ _ hrest)
  -- `disown` gives up the lock that it has been called with
  | disown s =>
    have hpos : 0 < held rest := hbr.2.1 rfl
    obtain ⟨hheld, hbr'⟩ := disown_held (t := t) (s := s) k.toSync hpos
    exact .of_syncOnly h hr (.refl k) ((plain_disown _ _ _).append hplain) hheld (hbr' hrest)
  | handOff s =>
    have hoff := neutral_handOff k.toSync s
    exact .of_syncOnly h hr (.of_sameQueues (SemaphoreRT.sameQueues_handOff k.toSync s))
      (hoff.plain.append hplain) (hoff.held rest) (hoff.bracketed _ _ hrest)
  | p s locked =>
    have heq := Sync.template_p_eq k.toSync s t
    -- without sleeping, `p` only decrements and unlocks
    by_cases hsleeps : (k.sem s).value < 1
    · simp only [Instr.exec, heq, hsleeps, decide_true, if_true]
      exact runs_sleep h hr (hidle s locked rfl) hplain hbr hsleeps
    · simp only [Instr.exec, heq, hsleeps, decide_false, Bool.false_eq_true, if_false]
      refine .of_quiet h hr rfl rfl rfl rfl (fun _ _ => rfl) (fun s' => ?_) (fun s' => ?_)
        ?_ ?_ ?_
      · by_cases hs : s' = s <;> simp [hs]
      · by_cases hs : s' = s <;> simp [hs, hsleeps]
      · cases locked
        · exact plain_unlock.append hplain
        · exact hplain
      · cases locked <;> simp [held, Thread.unlock]
      · cases locked
        · exact (releasing_unlock rest).2 _ hrest
        · exact hrest
  | v s locked =>
    cases hw : (SemaphoreTemplate.v k.toSync s).2 with
    | some u =>
      have hneg : (k.sem s).value < 0 := by
        rw [Sync.template_v_eq] at hw
        by_contra hneg
        simp [hneg] at hw
      cases locked with
      -- `hnone` excludes that a real-time `v()` wakes somebody up
      | true => exact absurd hneg (not_lt.mpr hnone)
      | false =>
        simp only [Instr.exec, hw]
        exact runs_wake h hr hplain hbr hw
    | none =>
      simp only [Instr.exec, hw]
      have heq := Sync.template_v_eq k.toSync s
      refine .of_quiet h hr rfl rfl rfl rfl (fun _ _ => rfl) (fun s' => ?_) (fun s' => ?_)
        ?_ ?_ ?_
      · rw [heq]
        by_cases hs : s' = s <;> simp [hs]
      · rw [heq] at hw ⊢
        by_cases hs : s' = s
        · subst hs
          by_cases hneg : (k.sem s').value < 0
          · simp only [if_pos hneg, List.head?_eq_none_iff] at hw
            simp [hneg, hw]
          · simp [hneg]
        · simp [hs]
      · split
        · exact plain_unlock.append hplain
        · exact hplain
      · cases locked with
        | true => simp [not_lt.mpr hnone, held]
        | false => simp [held, Thread.unlock]
      · cases locked with
        | true => simpa [not_lt.mpr hnone] using hrest
        | false =>
          rw [if_pos (.inr Bool.false_ne_true)]
          exact (releasing_unlock rest).2 _ hrest
  | updateCeiling s => exact .of_syncOnly h hr (.updateCeiling k s) hplain rfl hrest
  | reschedule => exact runs_reschedule h hr hplain hbr
  | ret =>
    exact .of_quiet h hr rfl rfl rfl rfl (fun _ hx => Function.update_of_ne hx _ _)
      (fun _ => rfl) (fun _ => rfl) hplain rfl hrest

end Kernel

/-! ## The invariant -/

namespace Machine

variable {m m' : Machine} {c : Nat} {s : Sid} {t u n : Tid} {code rest : List Instr} {i : Instr}

open Classical in
/-- The releases of the lock as it is that `t` has to make. -/
noncomputable def due (m : Machine) (t : Tid) : Nat :=
  if m.Stranded t then held (m.code t) - 1 else held (m.code t)

/-- A stranded thread has one release less to do. -/
theorem due_stranded (h : m.Stranded t) : m.due t = held (m.code t) - 1 := if_pos h

/-- A thread that is not stranded has all of its releases to do. -/
theorem due_not_stranded (h : ¬m.Stranded t) : m.due t = held (m.code t) := if_neg h

/-- The thread in `context c` is the running one, or on its way to it. -/
def OnCore (m : Machine) (c : Nat) : Prop := m.RunsOr c (m.context c) (m.code (m.context c))

structure LockInv (m : Machine) : Prop where
  wellFormed : m.toKernel.WellFormed
  smp : m.smp
  accounts : m.lock.Accounts m.due
  bracketed : ∀ t, ¬m.Stranded t → Bracketed m.realTime (m.code t)
  stranded : ∀ t, m.Stranded t → ∀ code, m.code t = .release :: code → 0 < held code
  idle : ∀ c < m.cores, ∀ s locked, .p s locked ∉ m.code (m.idle c)
  core : ∀ c < m.cores, m.core (m.context c) = c
  onCore : ∀ c < m.cores, m.OnCore c
  plain : ∀ t, (∀ c < m.cores, m.context c ≠ t) → Plain (m.code t)

/-- Between two threads a core only releases the lock and switches. -/
theorem LockInv.running (h : m.LockInv) (hc : c < m.cores)
    (hcode : m.code (m.context c) = i :: rest) (hrel : i ≠ .release)
    (hsw : ∀ n, i ≠ .switchContext n) :
    m.running c = some (m.context c) ∧ Plain (i :: rest) := by
  rw [← hcode]
  apply (h.onCore c hc).resolve_right
  intro ⟨n, _, _, rest', _, hrest⟩
  rw [hcode] at hrest
  cases hrest with
  | inl heq => exact hsw n (List.cons.inj heq).1
  | inr heq => exact hrel (List.cons.inj heq).1

/-- What a step on the core `c` has to keep: the context there is a thread of the
    core, and only the code of the thread that was there changes. -/
theorem LockInv.of_step (h : m.LockInv) (hc : c < m.cores)
    (hcode : m'.code = Function.update m.code (m.context c) code)
    (hwf : m'.toKernel.WellFormed) (hsys : m'.toSystem = m.toSystem)
    (hrt : m'.realTime = m.realTime)
    (hstr : ∀ u, u ≠ m.context c → (m'.Stranded u ↔ m.Stranded u))
    (hacc : m'.lock.Accounts m'.due)
    (hbr : ¬m'.Stranded (m.context c) → Bracketed m.realTime code)
    (hrel : m'.Stranded (m.context c) → ∀ rest, code = .release :: rest → 0 < held rest)
    (hidle : ∀ s locked, .p s locked ∈ code →
      .p s locked ∈ m.code (m.context c) ∨ m.context c ≠ m.idle c)
    (hothers : ∀ c', c' ≠ c → c' < m.cores →
      m'.running c' = m.running c' ∧ m'.context c' = m.context c')
    (hcore : m.core (m'.context c) = c) (hon : m'.OnCore c)
    (hplain : m'.context c = m.context c ∨ Plain code) : m'.LockInv := by
  -- the code of all threads but the one on `c` is the same
  have hself : m'.code (m.context c) = code := by rw [hcode, Function.update_self]
  have hne {u : Tid} (hu : u ≠ m.context c) : m'.code u = m.code u := by
    rw [hcode, Function.update_of_ne hu]
  constructor
  case wellFormed => exact hwf
  case smp => exact hsys ▸ h.smp
  case accounts => exact hacc
  case bracketed =>
    intro u hu
    rw [hrt]
    by_cases hut : u = m.context c
    · subst hut
      rw [hself]
      exact hbr hu
    · rw [hne hut]
      exact h.bracketed u (mt (hstr u hut).mpr hu)
  case stranded =>
    intro u hu
    by_cases hut : u = m.context c
    · subst hut
      rw [hself]
      exact hrel hu
    · rw [hne hut]
      exact h.stranded u ((hstr u hut).mp hu)
  case idle =>
    rw [hsys]
    intro c' hc' s locked hmem
    by_cases hut : m.idle c' = m.context c
    · -- an idle thread is the context of its own core only
      have hcc : c' = c := by
        have hcore := ((h.wellFormed.mem_iff c' _).mp (h.wellFormed.idle c' hc')).2
        rw [hut, h.core c hc] at hcore
        exact hcore.symm
      rw [hut, hself] at hmem
      cases hidle s locked hmem with
      | inl hold => exact h.idle c' hc' s locked (hut ▸ hold)
      | inr hne' => exact hne' (hcc ▸ hut.symm)
    · rw [hne hut] at hmem
      exact h.idle c' hc' s locked hmem
  case core =>
    rw [hsys]
    intro c' hc'
    by_cases hcc : c' = c
    · exact hcc ▸ hcore
    · rw [(hothers c' hcc hc').2]
      exact h.core c' hc'
  case onCore =>
    rw [hsys]
    intro c' hc'
    by_cases hcc : c' = c
    · exact hcc ▸ hon
    · obtain ⟨hrun, hctx⟩ := hothers c' hcc hc'
      -- the contexts of two cores are different threads, as their cores differ
      have hut : m.context c' ≠ m.context c := by
        intro heq
        apply hcc
        rw [← h.core c' hc', heq, h.core c hc]
      unfold OnCore Kernel.RunsOr
      rw [hrun, hctx, hne hut]
      exact h.onCore c' hc'
  case plain =>
    rw [hsys]
    intro u hu
    by_cases hut : u = m.context c
    · subst hut
      rw [hself]
      exact hplain.resolve_left (hu c hc)
    · rw [hne hut]
      apply h.plain u
      intro c' hc' heq
      by_cases hcc : c' = c
      · exact hut (hcc ▸ heq.symm)
      · exact hu c' hc' ((hothers c' hcc hc').2.trans heq)

/-- The code that an instruction expands into calls no `p()`. -/
theorem p_not_mem_exec (k : Kernel) {locked : Bool} : .p s locked ∉ (i.exec k c t).2 := by
  -- all expansions are made of these pieces
  have hset (u : Tid) (prio : Int) : .p s locked ∉ Thread.setPriority u prio := by
    simp [Thread.setPriority, Thread.lock, Thread.unlock]
  have hunlock : .p s locked ∉ Thread.unlock := by simp [Thread.unlock]
  have hswitch (k : Kernel) : .p s locked ∉ k.switchCode c t := by
    unfold Kernel.switchCode
    split
    · exact hunlock
    · split
      · exact hunlock
      · simp
  have htake (σ : Sync) (s' : Sid) (u : Tid) : .p s locked ∉ (SemaphoreRT.take σ s' u).2 := by
    unfold SemaphoreRT.take
    dsimp only
    split
    · exact hset _ _
    · exact hset _ _
    · exact List.not_mem_nil
  cases i with
  | own s' =>
    show _ ∉ (SemaphoreRT.own k.toSync s' t).2
    unfold SemaphoreRT.own SemaphoreRT.contend
    split
    · exact htake _ _ _
    · dsimp only
      split <;> (try split) <;> first | exact hset _ _ | exact List.not_mem_nil
  | disown s' =>
    show _ ∉ SemaphoreRT.disown k.toSync s' t
    unfold SemaphoreRT.disown
    split
    · rw [List.mem_append]
      exact not_or.mpr ⟨hset _ _, by simp⟩
    · exact List.not_mem_nil
  | handOff s' =>
    show _ ∉ (SemaphoreRT.handOff k.toSync s').2
    unfold SemaphoreRT.handOff
    split
    · exact htake _ _ _
    · exact List.not_mem_nil
  | p s' locked' =>
    simp only [Instr.exec]
    split
    · exact hswitch _
    · cases locked'
      · exact hunlock
      · exact List.not_mem_nil
  | v s' locked' =>
    simp only [Instr.exec]
    split
    · exact hswitch _
    · split
      · exact hunlock
      · exact List.not_mem_nil
  | reschedule => exact hswitch _
  | _ => exact List.not_mem_nil

/-- An instruction that neither takes nor releases the lock nor switches. -/
theorem LockInv.exec_runs (h : m.LockInv) (hc : c < m.cores)
    (hcode : m.code (m.context c) = i :: rest) (hnone : m.FindsNone i) (hacq : i ≠ .acquire)
    (hrel : i ≠ .release) (hsw : ∀ n, i ≠ .switchContext n) : (m.exec c).LockInv := by
  obtain ⟨hr, hplain⟩ := h.running hc hcode hrel hsw
  have hns := h.wellFormed.not_stranded hr
  have hbr : Bracketed m.realTime (i :: rest) := hcode ▸ h.bracketed _ hns
  have hidle (s : Sid) (locked : Bool) (hi : i = .p s locked) : m.context c ≠ m.idle c := by
    intro heq
    apply h.idle c hc s locked
    rw [← heq, hcode, hi]
    exact List.mem_cons_self
  -- what the instruction does to the kernel is one case of `Runs`
  have hruns := Kernel.runs_exec h.wellFormed hr hidle hnone hacq hrel hplain hbr
  have hlock : i.onLock m.smp (m.context c) m.lock = m.lock := by
    cases i with
    | acquire => exact absurd rfl hacq
    | release => exact absurd rfl hrel
    | _ => rfl
  have hctx : i.onContext (m.context c) = m.context c := by
    cases i with
    | switchContext n => exact absurd rfl (hsw n)
    | _ => rfl
  rw [← exec_toKernel hcode] at hruns
  have hcode' := exec_code hcode
  have hctx' : (m.exec c).context = m.context := by
    rw [exec_context hcode, hctx, Function.update_eq_self]
  have hself : (m.exec c).code (m.context c) =
      (i.exec m.toKernel c (m.context c)).2 ++ rest := by
    rw [hcode', Function.update_self]
  -- the lock does not change, so nobody may owe more or fewer releases
  have hdue (u : Tid) : (m.exec c).due u = m.due u := by
    by_cases hu : u = m.context c
    · subst hu
      rw [due_not_stranded hns, hcode]
      cases hruns.code with
      | inl hk => rw [due_not_stranded hk.1, hself, hk.2.1]
      | inr hk =>
        -- stranded: one release less is owed, and one more is in the code
        obtain ⟨hs, rest', heq, -, hheld⟩ := hk
        rw [due_stranded hs, hself, heq, ← hheld]
        exact Nat.add_sub_cancel _ _
    · have hcodeu : (m.exec c).code u = m.code u := by
        rw [hcode', Function.update_of_ne hu]
      have hstr := hruns.stranded u hu
      by_cases hs : m.Stranded u
      · rw [due_stranded hs, due_stranded (hstr.mpr hs), hcodeu]
      · rw [due_not_stranded hs, due_not_stranded (mt hstr.mp hs), hcodeu]
  refine h.of_step hc hcode' hruns.wellFormed hruns.toSystem hruns.realTime hruns.stranded
    ?_ ?_ ?_ ?_ ?_ ?_ ?_ (.inl (congrFun hctx' c))
  · rw [exec_lock hcode, hlock]
    exact h.accounts.congr hdue
  · intro hs
    cases hruns.code with
    | inl hk => exact hk.2.2
    | inr hk => exact absurd hk.1 hs
  · intro hs rest₁ heq
    cases hruns.code with
    | inl hk => exact absurd hs hk.1
    | inr hk =>
      obtain ⟨-, rest₂, heq', hpos, -⟩ := hk
      rw [heq'] at heq
      exact (List.cons.inj heq).2 ▸ hpos
  · intro s locked hmem
    cases List.mem_append.mp hmem with
    | inl hmem => exact absurd hmem (p_not_mem_exec _)
    | inr hmem => exact .inl (hcode ▸ List.mem_cons_of_mem _ hmem)
  · exact fun c' hcc hc' => ⟨hruns.running c' hcc hc', by rw [hctx']⟩
  · rw [hctx']
    exact h.core c hc
  · unfold OnCore
    rw [hctx', hself]
    exact hruns.runsOr

/-! ### The lock and the switch -/

/-- A step that changes nothing but the machine around the kernel. -/
theorem LockInv.exec_same (h : m.LockInv) (hc : c < m.cores)
    (hcode : m.code (m.context c) = i :: rest) (hi : i.exec m.toKernel c (m.context c) =
      (m.toKernel, [])) (hacc : (m.exec c).lock.Accounts (m.exec c).due)
    (hbr : ¬m.Stranded (m.context c) → Bracketed m.realTime rest)
    (hrel : m.Stranded (m.context c) → ∀ rest', rest = .release :: rest' → 0 < held rest')
    (hcore : m.core ((m.exec c).context c) = c) (hon : (m.exec c).OnCore c)
    (hplain : (m.exec c).context c = m.context c ∨ Plain rest) : (m.exec c).LockInv := by
  have hk : (m.exec c).toKernel = m.toKernel := by rw [exec_toKernel hcode, hi]
  have hcode' : (m.exec c).code = Function.update m.code (m.context c) rest := by
    rw [exec_code hcode, hi]
    rfl
  refine h.of_step hc hcode' (hk ▸ h.wellFormed) (by rw [hk]) (by rw [hk]) (fun _ _ => by rw [hk])
    hacc ?_ ?_ ?_ ?_ hcore hon hplain
  · rw [hk]
    exact hbr
  · rw [hk]
    exact hrel
  · intro s locked hmem
    exact .inl (hcode ▸ List.mem_cons_of_mem _ hmem)
  · intro c' hcc _
    rw [hk, exec_context hcode, Function.update_of_ne hcc]
    exact ⟨rfl, rfl⟩

/-- What is due only depends on the kernel and on the code of the thread. -/
theorem due_congr (hk : m'.toKernel = m.toKernel) (hcode : m'.code t = m.code t) :
    m'.due t = m.due t := by
  unfold due
  rw [hk, hcode]

/-- An instruction that concerns neither the kernel nor the context is just taken off. -/
theorem exec_silent (hcode : m.code (m.context c) = i :: rest)
    (hi : i.exec m.toKernel c (m.context c) = (m.toKernel, []))
    (hctx : i.onContext (m.context c) = m.context c) :
    (m.exec c).toKernel = m.toKernel ∧ (m.exec c).context = m.context ∧
      (m.exec c).code (m.context c) = rest := by
  refine ⟨?_, ?_, ?_⟩
  · rw [exec_toKernel hcode, hi]
  · rw [exec_context hcode, hctx, Function.update_eq_self]
  · rw [exec_code hcode, hi, Function.update_self]
    rfl

/-- Acquiring the lock keeps the invariant. -/
theorem LockInv.exec_acquire (h : m.LockInv) (hc : c < m.cores)
    (hcode : m.code (m.context c) = .acquire :: rest)
    (hcan : m.lock.CanAcquire (m.context c)) : (m.exec c).LockInv := by
  obtain ⟨hr, hplain⟩ := h.running hc hcode (by simp) (by simp)
  have hns := h.wellFormed.not_stranded hr
  have hbr : Bracketed m.realTime (.acquire :: rest) := hcode ▸ h.bracketed _ hns
  obtain ⟨hk, hctx, hself⟩ := exec_silent hcode rfl rfl
  refine h.exec_same hc hcode rfl ?_ (fun _ => hbr.tail) (fun hs => absurd hs hns) ?_ ?_ ?_
  · rw [exec_lock hcode]
    simp only [Instr.onLock, if_pos h.smp]
    refine h.accounts.acquire hcan ?_ fun u hu => due_congr hk ?_
    · rw [due_not_stranded hns, due_not_stranded (hk ▸ hns), hself, hcode]
      have hpos : 0 < held rest := hbr.1 rfl
      show held rest = held rest - 1 + 1
      omega
    · rw [exec_code hcode, Function.update_of_ne hu]
  · rw [hctx]
    exact h.core c hc
  · refine .inl ⟨?_, ?_⟩
    · rw [hk, hctx]
      exact hr
    · rw [hctx, hself]
      exact hplain.tail
  · exact .inl (congrFun hctx c)

/-- Whoever is about to release the lock has to. -/
theorem LockInv.due_pos_release (h : m.LockInv)
    (hcode : m.code (m.context c) = .release :: rest) : 0 < m.due (m.context c) := by
  by_cases hs : m.Stranded (m.context c)
  · rw [due_stranded hs, hcode]
    exact h.stranded _ hs _ hcode
  · rw [due_not_stranded hs, hcode]
    exact Nat.succ_pos _

/-- Releasing the lock keeps the invariant. -/
theorem LockInv.exec_release (h : m.LockInv) (hc : c < m.cores)
    (hcode : m.code (m.context c) = .release :: rest) : (m.exec c).LockInv := by
  obtain ⟨hk, hctx, hself⟩ := exec_silent hcode rfl rfl
  have hdue : (m.exec c).due (m.context c) = m.due (m.context c) - 1 := by
    by_cases hs : m.Stranded (m.context c)
    · rw [due_stranded hs, due_stranded (hk ▸ hs), hself, hcode]
      rfl
    · rw [due_not_stranded hs, due_not_stranded (hk ▸ hs), hself, hcode]
      rfl
  refine h.exec_same hc hcode rfl ?_ ?_ ?_ ?_ ?_ ?_
  · rw [exec_lock hcode]
    simp only [Instr.onLock, if_pos h.smp]
    refine h.accounts.release (h.due_pos_release hcode) hdue fun u hu => due_congr hk ?_
    rw [exec_code hcode, Function.update_of_ne hu]
  · exact fun hs => (hcode ▸ h.bracketed _ hs : Bracketed m.realTime (.release :: rest)).tail
  · -- a stranded thread is on its way to another one
    intro hs rest' hrest
    exfalso
    cases h.onCore c hc with
    | inl hr => exact h.wellFormed.not_stranded hr.1 hs
    | inr hsw =>
      obtain ⟨n, -, -, rest₁, -, heq⟩ := hsw
      rw [hcode, hrest] at heq
      simp at heq
  · rw [hctx]
    exact h.core c hc
  · have hon := h.onCore c hc
    unfold OnCore Kernel.RunsOr at hon ⊢
    rw [hk, hctx, hself]
    rw [hcode] at hon
    cases hon with
    | inl hr => exact .inl ⟨hr.1, hr.2.tail⟩
    | inr hsw =>
      obtain ⟨n, hne, hn, rest₁, hplain, heq⟩ := hsw
      refine .inr ⟨n, hne, hn, rest₁, hplain, .inl ?_⟩
      simpa using heq
  · exact .inl (congrFun hctx c)

/-- A switch of contexts keeps the invariant. -/
theorem LockInv.exec_switchContext (h : m.LockInv) (hc : c < m.cores)
    (hcode : m.code (m.context c) = .switchContext n :: rest) : (m.exec c).LockInv := by
  -- the thread that runs is the one that the code names
  have hn : m.running c = some n ∧ ∃ rest', Plain rest' ∧ rest = .intEnable :: rest' := by
    cases h.onCore c hc with
    | inl hr => exact absurd (hcode ▸ List.mem_cons_self) (hr.2 n)
    | inr hsw =>
      obtain ⟨n', -, hn', rest₁, hplain, heq⟩ := hsw
      rw [hcode] at heq
      simp at heq
      obtain ⟨rfl, rfl⟩ := heq
      exact ⟨hn', rest₁, hplain, rfl⟩
  obtain ⟨hn, rest', hplain', rfl⟩ := hn
  have hplain : Plain (.intEnable :: rest') := fun n => by simp [hplain' n]
  have hcore : m.core n = c := (h.wellFormed.state_of_running hn).2
  have hk : (m.exec c).toKernel = m.toKernel := exec_toKernel hcode
  have hctx : (m.exec c).context c = n := by
    rw [exec_context hcode, Function.update_self]
    rfl
  have hcode' : (m.exec c).code =
      Function.update m.code (m.context c) (.intEnable :: rest') := exec_code hcode
  have hself : (m.exec c).code (m.context c) = .intEnable :: rest' := by
    rw [hcode', Function.update_self]
  refine h.exec_same hc hcode rfl ?_ ?_ ?_ ?_ ?_ (.inr hplain)
  · rw [exec_lock hcode]
    refine h.accounts.congr fun u => ?_
    by_cases hu : u = m.context c
    · subst hu
      by_cases hs : m.Stranded (m.context c)
      · rw [due_stranded hs, due_stranded (hk ▸ hs), hself, hcode]
        rfl
      · rw [due_not_stranded hs, due_not_stranded (hk ▸ hs), hself, hcode]
        rfl
    · exact due_congr hk (by rw [hcode', Function.update_of_ne hu])
  · exact fun hs =>
      (hcode ▸ h.bracketed _ hs : Bracketed m.realTime (.switchContext n :: _)).tail
  · exact fun _ _ heq => nomatch (List.cons.inj heq).1
  · rw [hctx]
    exact hcore
  · refine .inl ⟨?_, ?_⟩
    · rw [hk, hctx]
      exact hn
    · rw [hctx, hcode']
      by_cases hnt : n = m.context c
      · rw [hnt, Function.update_self]
        exact hplain
      · rw [Function.update_of_ne hnt]
        apply h.plain n
        intro c' hc' heq
        have hcc : c' = c := by rw [← h.core c' hc', heq, hcore]
        exact hnt (hcc ▸ heq).symm

/-! ### Calls and interrupts -/

/-- Code of its own that a thread puts before the rest. -/
theorem LockInv.push (h : m.LockInv) (hc : c < m.cores)
    (hr : m.running c = some (m.context c)) (hplain : Plain (m.code (m.context c)))
    (hcode : Plain code) (hheld : held (code ++ m.code (m.context c)) =
      held (m.code (m.context c)))
    (hbr : Bracketed m.realTime (code ++ m.code (m.context c)))
    (hidle : ∀ s locked, .p s locked ∈ code → m.context c ≠ m.idle c)
    (hm' : m'.toKernel = m.toKernel ∧ m'.lock = m.lock ∧ m'.context = m.context ∧
      m'.code = (m.push (m.context c) code).code) : m'.LockInv := by
  obtain ⟨hk, hlock, hctx, hcode'⟩ := hm'
  have hns := h.wellFormed.not_stranded hr
  have hself : m'.code (m.context c) = code ++ m.code (m.context c) := by
    rw [hcode']
    exact Function.update_self _ _ _
  refine h.of_step hc hcode' (hk ▸ h.wellFormed) (by rw [hk]) (by rw [hk]) (fun _ _ => by rw [hk])
    ?_ (fun _ => hbr) (fun hs => absurd (hk ▸ hs) hns) ?_ ?_ ?_ ?_ ?_
  · rw [hlock]
    -- The code in front releases as often as it acquires.
    refine h.accounts.congr fun u => ?_
    by_cases hu : u = m.context c
    · subst hu
      rw [due_not_stranded hns, due_not_stranded (hk ▸ hns), hself, hheld]
    · apply due_congr hk
      rw [hcode']
      exact Function.update_of_ne hu _ _
  · intro s locked hmem
    cases List.mem_append.mp hmem with
    | inl hmem => exact .inr (hidle s locked hmem)
    | inr hmem => exact .inl hmem
  · exact fun c' _ _ => ⟨by rw [hk], by rw [hctx]⟩
  · rw [hctx]
    exact h.core c hc
  · refine .inl ⟨?_, ?_⟩
    · rw [hk, hctx]
      exact hr
    · rw [hctx, hself]
      exact hcode.append hplain
  · exact .inl (by rw [hctx])

/-- A thread outside the kernel is the running one. -/
theorem LockInv.running_outside (h : m.LockInv) (hc : c < m.cores)
    (hcode : m.code (m.context c) = []) : m.running c = some (m.context c) := by
  cases h.onCore c hc with
  | inl hr => exact hr.1
  | inr hsw =>
    obtain ⟨n, -, -, rest, -, heq⟩ := hsw
    rw [hcode] at heq
    cases heq with
    | inl heq => cases heq
    | inr heq => cases heq

/-! ## Runs -/

instance (k : Kernel) (i : Instr) : Decidable (k.FindsNone i) :=
  match i with
  | .v s true => inferInstanceAs (Decidable (0 ≤ (k.sem s).value))
  | .v _ false | .intDisable | .intEnable | .acquire | .release | .switchContext _
  | .setPriority _ _ | .own _ | .disown _ | .handOff _ | .p _ _ | .updateCeiling _
  | .reschedule | .ret => isTrue trivial

/-- No `v()` of a real-time semaphore finds a thread that waits. -/
def NoneWoken (m : Machine) : MachineAction → Prop
  | .step c => ∀ i ∈ m.instr c, m.FindsNone i
  | _ => True

/-- Instructions of the kind `P` are executed by the owner of the lock. -/
def DoneByOwner (m : Machine) (P : Instr → Bool) : MachineAction → Prop
  | .step c => (m.instr c).any P → m.lock.owner = some (m.context c)
  | _ => True

instance (m : Machine) (a : MachineAction) : Decidable (m.NoneWoken a) :=
  match a with
  | .step c => inferInstanceAs (Decidable (∀ i ∈ m.instr c, m.FindsNone i))
  | .p _ _ | .v _ _ | .interrupt _ => isTrue trivial

instance (m : Machine) (P : Instr → Bool) (a : MachineAction) : Decidable (m.DoneByOwner P a) :=
  match a with
  | .step c =>
    inferInstanceAs (Decidable ((m.instr c).any P → m.lock.owner = some (m.context c)))
  | .p _ _ | .v _ _ | .interrupt _ => isTrue trivial

/-- The lock is free and every core is outside the kernel; a context that has not been
    executed yet begins by enabling interrupts. -/
structure Start (m : Machine) : Prop where
  boot : m.toKernel.Boot
  smp : m.smp
  lock : m.lock = {}
  running : ∀ c < m.cores, m.running c = some (m.context c)
  outside : ∀ c < m.cores, m.code (m.context c) = []
  code : ∀ t, m.code t = [] ∨ m.code t = [.intEnable]

/-- The invariant holds at the start. -/
theorem Start.lockInv (h : m.Start) : m.LockInv := by
  -- no queue has a thread at boot
  have hns (t : Tid) : ¬m.Stranded t := by
    intro ⟨s, _, ht⟩
    rw [h.boot.queue_nil] at ht
    cases ht
  -- a thread has at most to enable the interrupts
  have hdue (t : Tid) : m.due t = 0 := by
    rw [due_not_stranded (hns t)]
    cases h.code t with
    | inl hcode => rw [hcode]; rfl
    | inr hcode => rw [hcode]; rfl
  have hplain (t : Tid) : Plain (m.code t) := by
    intro n
    cases h.code t with
    | inl hcode => simp [hcode]
    | inr hcode => simp [hcode]
  constructor
  case wellFormed => exact h.boot.toWellFormed
  case smp => exact h.smp
  case accounts =>
    rw [h.lock]
    exact RecursiveLock.Accounts.init.congr hdue
  case bracketed =>
    intro t _
    cases h.code t with
    | inl hcode => rw [hcode]; trivial
    | inr hcode => rw [hcode]; exact ⟨nofun, nofun, trivial, trivial⟩
  case stranded => exact fun t ht => absurd ht (hns t)
  case idle =>
    intro c _ s locked
    cases h.code (m.idle c) with
    | inl hcode => simp [hcode]
    | inr hcode => simp [hcode]
  case core => exact fun c hc => (h.boot.state_of_running (h.running c hc)).2
  case onCore => exact fun c hc => .inl ⟨h.running c hc, hplain _⟩
  case plain => exact fun t _ => hplain t

/-- Every step keeps the invariant. -/
theorem LockInv.step (h : m.LockInv) {a : MachineAction} (ha : m.CanAct a)
    (hnone : m.NoneWoken a) : (m.step a).LockInv := by
  cases a with
  | p c s =>
    obtain ⟨hc, hcode, hidle, -⟩ := ha
    have hr := h.running_outside hc hcode
    -- the body of `p()` is balanced and starts from no code
    obtain ⟨hheld, hplain, hbr⟩ :=
      atomic_bodyP (s := s) (show (m.sem s).protocol.resource = m.realTime s from rfl)
    refine h.push hc hr (hcode ▸ neutral_nil.plain) hplain ?_ ?_ (fun _ _ _ => hidle)
      ⟨rfl, rfl, rfl, rfl⟩
    · rw [hcode, List.append_nil]
      exact hheld
    · rw [hcode, List.append_nil]
      exact hbr
  | v c s =>
    obtain ⟨hc, hcode, -⟩ := ha
    have hr := h.running_outside hc hcode
    obtain ⟨hheld, hplain, hbr⟩ :=
      atomic_bodyV (s := s) (show (m.sem s).protocol.resource = m.realTime s from rfl)
    refine h.push hc hr (hcode ▸ neutral_nil.plain) hplain ?_ ?_ (fun s' locked hmem => ?_)
      ⟨rfl, rfl, rfl, rfl⟩
    · rw [hcode, List.append_nil]
      exact hheld
    · rw [hcode, List.append_nil]
      exact hbr
    · -- the body of `v()` calls no `p()`
      exfalso
      cases hp : (m.sem s).protocol <;>
        simp [hp, Protocol.atomic, Protocol.bodyV, Protocol.resource, Thread.lock,
          Thread.unlock] at hmem
  | interrupt c =>
    obtain ⟨hc, -, hr⟩ := ha
    -- an interrupted thread is not between a decision and its switch
    have hplain : Plain (m.code (m.context c)) := by
      cases h.onCore c hc with
      | inl hr => exact hr.2
      | inr hsw =>
        obtain ⟨n, hne, hn, -⟩ := hsw
        rw [hr] at hn
        exact absurd (Option.some.inj hn).symm hne
    have hbr := h.bracketed _ (h.wellFormed.not_stranded hr)
    refine h.push hc hr hplain neutral_rescheduler.plain (neutral_rescheduler.held _)
      (neutral_rescheduler.bracketed _ _ hbr) (fun s locked hmem => ?_) ⟨rfl, rfl, rfl, rfl⟩
    exfalso
    simp [Thread.rescheduler, Thread.lock] at hmem
  | step c =>
    obtain ⟨hc, hsome, hcan⟩ := ha
    obtain ⟨i, hi⟩ := Option.isSome_iff_exists.mp hsome
    obtain ⟨rest, hcode⟩ : ∃ rest, m.code (m.context c) = i :: rest := by
      exact ⟨_, (List.head?_eq_some_iff.mp hi).choose_spec⟩
    show (m.exec c).LockInv
    by_cases hacq : i = .acquire
    · subst hacq
      exact h.exec_acquire hc hcode (hcan hi h.smp)
    · by_cases hrel : i = .release
      · subst hrel
        exact h.exec_release hc hcode
      · by_cases hsw : ∃ n, i = .switchContext n
        · obtain ⟨n, rfl⟩ := hsw
          exact h.exec_switchContext hc hcode
        · exact h.exec_runs hc hcode (hnone i hi) hacq hrel fun n hn => hsw ⟨n, hn⟩

/-- Where the invariant holds, the owner of the lock executes what it should. -/
theorem LockInv.doneByOwner (h : m.LockInv) {a : MachineAction} (ha : m.CanAct a) :
    m.DoneByOwner Instr.isRelease a ∧ m.DoneByOwner Instr.guarded a := by
  cases a with
  | p c s | v c s | interrupt c => exact ⟨trivial, trivial⟩
  | step c =>
    obtain ⟨hc, hsome, -⟩ := ha
    obtain ⟨i, hi⟩ := Option.isSome_iff_exists.mp hsome
    obtain ⟨rest, hcode⟩ : ∃ rest, m.code (m.context c) = i :: rest :=
      ⟨_, (List.head?_eq_some_iff.mp hi).choose_spec⟩
    constructor
    · intro hrel
      rw [hi] at hrel
      -- only a release is done here
      cases i with
      | release => exact h.accounts.owner_eq (h.due_pos_release hcode)
      | _ => cases hrel
    · intro hguard
      rw [hi] at hguard
      replace hguard : i.guarded := hguard
      -- a guarded instruction is executed by the running thread, never after the switch
      have hr : m.running c = some (m.context c) := by
        refine (h.running hc hcode ?_ fun n => ?_).1
        · rintro rfl
          cases hguard
        · rintro rfl
          cases hguard
      have hns := h.wellFormed.not_stranded hr
      have hbr : Bracketed m.realTime (i :: rest) := hcode ▸ h.bracketed _ hns
      apply h.accounts.owner_eq
      rw [due_not_stranded hns, hcode]
      exact hbr.2.1 hguard

end Machine

/-- The machine under `p()`s and `v()`s of every class, time slices and inter-processor
    interrupts. -/
def machine : TransitionSystem Machine MachineAction where
  Init m := m.Start
  Enabled m a := m.CanAct a
  next := Machine.step

instance (m : Machine) (a : MachineAction) : Decidable (machine.Enabled m a) :=
  inferInstanceAs (Decidable (m.CanAct a))

/-- As long as no `v()` of a real-time semaphore finds a thread that waits, the lock is
    released, and what it guards is used, by its owner only. -/
theorem lockOwned_of_noneWoken (m : Machine) (as : List MachineAction) (hm : machine.Init m)
    (hv : machine.Valid m as) (hc : machine.Meets Machine.NoneWoken m as) :
    machine.Meets (fun m a => m.DoneByOwner Instr.isRelease a ∧ m.DoneByOwner Instr.guarded a)
      m as := by
  refine TransitionSystem.Meets.meets (I := Machine.LockInv) ?_ ?_ hm.lockInv hv hc
  · exact fun m a h ha hnone => h.step ha hnone
  · exact fun m a h ha _ => h.doneByOwner ha

/-- Threads 9 and 8 (idle) on core 0, threads 3 and 7 (idle) on core 1. -/
def Kernel.lockExample : Kernel :=
  .multi
    { priority := fun t => if t = 8 ∨ t = 7 then Priority.idle else t
      sem := fun s =>
        if s = 0 then { protocol := .pip }
        else if s = 1 then { protocol := .srp, tasks := [9, 3] }
        else { protocol := .plain }
      store := fun _ _ => 0 }
    { smp := true, cores := 2, idle := fun c => if c = 0 then 8 else 7
      core := fun t => if t = 9 ∨ t = 8 then 0 else 1, srpResources := [1] }
    fun c => if c = 0 then 9 else 3

/-- The kernel of the example has booted. -/
theorem Kernel.lockExample_boot : Kernel.lockExample.Boot := by
  have hcore (c : Nat) (hc : c < 2) : c = 0 ∨ c = 1 := by omega
  refine multi_boot (fun c hc => ?_) (fun c hc => ?_) (fun c hc => ?_) (fun s => ?_)
    (fun s => ?_) fun s => ?_
  · cases hcore c hc with
    | inl h => rw [h]; rfl
    | inr h => rw [h]; rfl
  · cases hcore c hc with
    | inl h => rw [h]; rfl
    | inr h => rw [h]; rfl
  · cases hcore c hc with
    | inl h => rw [h]; decide
    | inr h => rw [h]; decide
  · by_cases hs : s = 0 <;> by_cases hs' : s = 1 <;> simp [hs, hs']
  · by_cases hs : s = 0 <;> by_cases hs' : s = 1 <;> simp [hs, hs']
  · by_cases hs : s = 0 <;> by_cases hs' : s = 1 <;> simp [hs, hs']

def Machine.lockExample : Machine where
  toKernel := Kernel.lockExample
  context c := if c = 0 then 9 else 3
  code t := if t = 9 ∨ t = 3 then [] else [.intEnable]

/-- The machine of the example has started. -/
theorem Machine.lockExample_start : machine.Init Machine.lockExample := by
  have hcore (c : Nat) (hc : c < 2) : c = 0 ∨ c = 1 := by omega
  constructor
  case boot => exact Kernel.lockExample_boot
  case smp => rfl
  case lock => rfl
  case running =>
    intro c hc
    cases hcore c hc with
    | inl h => rw [h]; rfl
    | inr h => rw [h]; rfl
  case outside =>
    intro c hc
    cases hcore c hc with
    | inl h => rw [h]; rfl
    | inr h => rw [h]; rfl
  case code =>
    intro t
    by_cases ht : t = 9 ∨ t = 3
    · exact .inl (if_pos ht)
    · exact .inr (if_neg ht)

/-- `n` instructions on the core `c`. -/
def MachineAction.steps (c n : Nat) : List MachineAction := List.replicate n (.step c)

open MachineAction in
/-- Thread 3 sleeps in a `Semaphore`, is woken up from the other core and then sleeps in
    the PIP semaphore of thread 9. -/
theorem lockOwned_of_noneWoken_contended :
    machine.Meets (fun m a => m.DoneByOwner Instr.isRelease a ∧ m.DoneByOwner Instr.guarded a)
      Machine.lockExample
      ([.p 0 0] ++ steps 0 7 ++ [.p 1 2] ++ steps 1 6 ++ [.p 1 2] ++ steps 1 6 ++ [.v 0 2] ++
        steps 0 6 ++ [.interrupt 1] ++ steps 1 7 ++ [.p 1 0] ++ steps 1 12) :=
  lockOwned_of_noneWoken _ _ Machine.lockExample_start (by decide +kernel) (by decide +kernel)

open MachineAction in
/-- Both halves fail. With PIP, thread 9 wakes thread 3 up and then releases the lock that
    the idle thread of the other core has taken for its `reschedule()`; with SRP, thread 9
    updates the ceilings without the lock. -/
theorem not_lockOwned_of_valid :
    (¬∀ m as, machine.Init m → machine.Valid m as →
      machine.Meets (fun m a => m.DoneByOwner Instr.isRelease a) m as) ∧
    ¬∀ m as, machine.Init m → machine.Valid m as →
      machine.Meets (fun m a => m.DoneByOwner Instr.writes a) m as := by
  constructor
  · intro h
    have hm := h Machine.lockExample
      ([.p 0 0] ++ steps 0 7 ++ [.p 1 0] ++ steps 1 12 ++ [.v 0 0] ++ steps 0 12 ++
        [.interrupt 1] ++ steps 1 2 ++ steps 0 1) Machine.lockExample_start (by decide +kernel)
    revert hm
    decide +kernel
  · intro h
    have hm := h Machine.lockExample
      ([.p 0 1] ++ steps 0 7 ++ [.p 1 1] ++ steps 1 5 ++ [.v 0 1] ++ steps 0 6)
      Machine.lockExample_start (by decide +kernel)
    revert hm
    decide +kernel

end Epos
