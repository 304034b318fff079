import Epos.Kernel.Machine
import Epos.Spec.WellFormed

/-!
# What one instruction does

The instructions of an owned class, executed one after the other, make up its
`p()` and `v()` (`p_eq_own`, `v_eq_handOff`), so a CPU that no other one gets in
between of does what the calls do as one step (`p_alone`, `v_alone`). Every
instruction keeps the kernel well formed when its thread is the running one, and
no instruction changes what runs on another core.
-/

namespace Epos

/-! ## The parts of `p()` and `v()` -/

namespace SemaphoreRT

open Sync

variable {σ : Sync} {s : Sid} {t u : Tid}

/-- The writes and the `setPriority()` call that follows them, executed at once. -/
def settle (r : Sync × List Instr) : Sync :=
  r.2.foldl (fun σ i => match i with | .setPriority u p => σ.setPriority u p | _ => σ) r.1

/-- No instruction is left to settle. -/
@[simp] theorem settle_nil (σ : Sync) : settle (σ, []) = σ := rfl

/-- Settling `Thread::priority` changes the priority at once. -/
@[simp] theorem settle_setPriority (σ : Sync) (u : Tid) (p : Int) :
    settle (σ, Thread.setPriority u p) = σ.setPriority u p := rfl

/-- Settling `take` saves the priority of the new owner and gives it that of the protocol. -/
theorem settle_take (hk : (σ.sem s).protocol.owned) (u : Tid) :
    settle (take σ s u) =
      (σ.modify s fun m => { m with priority := σ.priority u }).setPriority u
        ((σ.sem s).protocol.taken (σ.ceiling s) (σ.priority u)) := by
  have hself := setPriority_self (σ.savePriority s (σ.priority u)) u
  cases hp : (σ.sem s).protocol <;> rw [hp] at hk
  case pip | pcp =>
    simp only [take, SemaphorePIP.saveOwner, savePriority, modify_sem, Function.update_self, hp]
    exact hself.symm
  case ipcp | mpcp =>
    simp [take, SemaphorePIP.saveOwner, savePriority, hp, Protocol.taken, ceiling]
  case condition | plain | srp | msrp => cases hk

/-- Settling `contend` raises the owner as the protocol says. -/
theorem settle_contend (hk : (σ.sem s).protocol.owned) (u t : Tid) :
    settle (σ, contend σ s u t) =
      σ.setPriority u
        ((σ.sem s).protocol.contended (σ.ceiling s) (σ.priority u) (σ.priority t)) := by
  have hself := setPriority_self σ u
  cases hp : (σ.sem s).protocol <;> rw [hp] at hk
  case pip | pcp =>
    simp only [contend, hp, Protocol.contended]
    split
    · rfl
    · exact hself.symm
  case ipcp | mpcp =>
    simp only [contend, hp, Protocol.contended]
    exact hself.symm
  case condition | plain | srp | msrp => cases hk

/-- `p()` is the ownership part followed by the counter. -/
theorem p_eq_own (hk : (σ.sem s).protocol.owned) :
    σ.p s t = SemaphoreTemplate.p (settle (own σ s t)) s t := by
  obtain ⟨take, contend, hooks, heq⟩ := exists_hooks hk
  rw [(heq σ s t rfl).1]
  unfold SemaphoreRT.p own
  cases ho : (σ.sem s).owner with
  | none =>
    dsimp only
    rw [settle_take (by simpa [setOwner] using hk), hooks.take_eq]
    simp [setOwner]
  | some u =>
    dsimp only
    rw [settle_contend hk, hooks.contend_eq]

/-- `v()` is the hand-over, if the caller is the owner, followed by the counter. -/
theorem v_eq_handOff (hk : (σ.sem s).protocol.owned) :
    σ.v s t = SemaphoreTemplate.v
      (if (σ.sem s).owner = some t then
        settle (handOff (σ.setPriority t (σ.sem s).priority) s)
      else σ) s := by
  obtain ⟨take, contend, hooks, heq⟩ := exists_hooks hk
  rw [(heq σ s t rfl).2]
  unfold SemaphoreRT.v handOff
  split
  · dsimp only
    cases hn : (σ.setPriority t (σ.sem s).priority).nextThread s with
    | none => rfl
    | some u =>
      dsimp only
      rw [settle_take (by simpa [setOwner] using hk), hooks.take_eq]
      simp [setOwner]
  · rfl

/-- What is left of a step is one call of `Thread::setPriority`, or nothing. -/
def AtMostOne (code : List Instr) : Prop :=
  code = [] ∨ ∃ u p, code = Thread.setPriority u p

/-- The new owner gets its priority in one call. -/
theorem atMostOne_take (σ : Sync) (s : Sid) (u : Tid) : AtMostOne (take σ s u).2 := by
  unfold take
  dsimp only
  split
  · exact .inr ⟨_, _, rfl⟩
  · exact .inr ⟨_, _, rfl⟩
  · exact .inl rfl

/-- So does the owner that another thread contends with. -/
theorem atMostOne_own (σ : Sync) (s : Sid) (t : Tid) : AtMostOne (own σ s t).2 := by
  unfold own
  split
  · exact atMostOne_take _ s t
  · unfold contend
    dsimp only
    split
    · split
      · exact .inr ⟨_, _, rfl⟩
      · exact .inl rfl
    · split
      · exact .inr ⟨_, _, rfl⟩
      · exact .inl rfl
    · exact .inl rfl

/-- So does the thread that the semaphore is handed to. -/
theorem atMostOne_handOff (σ : Sync) (s : Sid) : AtMostOne (handOff σ s).2 := by
  unfold handOff
  split
  · exact atMostOne_take _ s _
  · exact .inl rfl

/-! ## What stays the same -/

/-- `take` leaves the queues alone. -/
theorem sameQueues_take (σ : Sync) (s : Sid) (u : Tid) : SameQueues σ (take σ s u).1 s := by
  unfold take
  dsimp only
  split <;> exact .savePriority σ s _

/-- `own` leaves the queues alone. -/
theorem sameQueues_own (σ : Sync) (s : Sid) (t : Tid) : SameQueues σ (own σ s t).1 s := by
  unfold own
  split
  · exact (SameQueues.setOwner σ s _).trans (sameQueues_take _ s t)
  · exact .refl σ s

/-- `handOff` leaves the queues alone. -/
theorem sameQueues_handOff (σ : Sync) (s : Sid) : SameQueues σ (handOff σ s).1 s := by
  unfold handOff
  split
  · exact (SameQueues.setOwner σ s _).trans (sameQueues_take _ s _)
  · exact (SameQueues.setOwner σ s _).trans (.savePriority _ s 0)

/-- A call of `Thread::setPriority` leaves the queues alone. -/
theorem sameQueues_settle {r : Sync × List Instr} (h : SameQueues σ r.1 s)
    (hone : AtMostOne r.2) : SameQueues σ (settle r) s := by
  obtain ⟨σ', code⟩ := r
  obtain hnil | ⟨u, p, hcall⟩ := hone
  · obtain rfl : code = [] := hnil
    exact h
  · obtain rfl : code = Thread.setPriority u p := hcall
    exact h.setPriority u p

end SemaphoreRT

namespace Kernel

variable {k k' : Kernel} {c c' : Nat} {s : Sid} {t u : Tid} {st : State}

/-! ## Other cores -/

/-- `reschedule()` on one core leaves the running thread of the others alone. -/
theorem reschedule_running_of_ne (hc : c' ≠ c) :
    (k.reschedule c).running c' = k.running c' := by
  unfold reschedule
  split
  · rfl
  · rw [running, dispatch_sched, setSched_sched, if_neg hc]
    rfl

/-- A preemption leaves the running thread of the other cores alone. -/
theorem preempt_running_of_ne (hc : c' ≠ c) {cpu : Nat} :
    (k.preempt c cpu).running c' = k.running c' := by
  unfold preempt
  split
  · exact reschedule_running_of_ne hc
  · rfl

/-- A thread that enters its list changes who runs on no other core. -/
theorem Placed.enter_running_of_ne (h : k.Placed) (hlt : k.core u < k.cores) (hc : c' ≠ c) :
    (k.enter c u).running c' = k.running c' := by
  unfold Kernel.enter
  rw [preempt_running_of_ne hc]
  exact insert_running (k := k.setState u .ready) (h.isSome _ hlt) c'

/-- A thread that leaves its list changes who runs on its own core at most. -/
theorem leave_running_of_ne (hc : c' ≠ k.core t) :
    (k.leave t st).running c' = k.running c' := by
  have hsched : ((k.setState t st).remove t).sched c' = k.sched c' :=
    (remove_sched _ _ _).trans (if_neg hc)
  unfold leave
  rw [running, dispatch_sched, hsched]
  rfl

/-- A thread that has left does not run. -/
theorem Placed.leave_running_ne (h : k.Placed) (hr : k.running (k.core t) = some t)
    (hidle : t ≠ k.idle (k.core t)) (hst : st ≠ .running ∧ st ≠ .ready) :
    (k.leave t st).running c ≠ some t := by
  intro hrun
  have hstate := ((h.leave hr hidle hst).running_iff c t).mp hrun
  rw [(h.leave_state hr hidle hst).1] at hstate
  exact hst.1 (Option.some.inj hstate.1)

/-! ## Steps that leave the scheduler alone -/

/-- Only synchronizers and ceilings differ, and no queue does. -/
structure SyncOnly (k k' : Kernel) : Prop where
  state : k'.state = k.state
  sched : k'.sched = k.sched
  toSystem : k'.toSystem = k.toSystem
  joining : k'.joining = k.joining
  call : k'.call = k.call
  protocol : ∀ s, (k'.sem s).protocol = (k.sem s).protocol
  queue : ∀ s, (k'.sem s).queue = (k.sem s).queue

theorem SyncOnly.refl (k : Kernel) : SyncOnly k k :=
  ⟨rfl, rfl, rfl, rfl, rfl, fun _ => rfl, fun _ => rfl⟩

/-- Changes that keep the queues are changes to the semaphores only. -/
theorem SyncOnly.of_sameQueues {σ : Sync} (h : Sync.SameQueues k.toSync σ s) :
    SyncOnly k { k with toSync := σ } := by
  refine ⟨rfl, rfl, rfl, rfl, rfl, fun s' => ?_, fun s' => ?_⟩ <;> by_cases hs : s' = s
  · exact hs ▸ h.protocol
  · exact congrArg (·.protocol) (h.others s' hs)
  · exact hs ▸ h.queue
  · exact congrArg (·.queue) (h.others s' hs)

/-- `update_ceiling()` changes the semaphores only. -/
theorem SyncOnly.updateCeiling (k : Kernel) (s : Sid) : SyncOnly k (k.updateCeiling s) := by
  obtain ⟨store, ceil, ceils, heq⟩ := updateCeiling_frame k s
  rw [heq]
  exact ⟨rfl, rfl, rfl, rfl, rfl, fun _ => rfl, fun _ => rfl⟩

end Kernel

/-! ## One step of a machine -/

namespace Machine

variable {m : Machine} {c : Nat} {i : Instr} {rest : List Instr}

/-- What an instruction does to the kernel. -/
theorem exec_toKernel (hcode : m.code (m.context c) = i :: rest) :
    (m.exec c).toKernel = (i.exec m.toKernel c (m.context c)).1 := by
  simp only [Machine.exec, hcode]

/-- What an instruction does to the lock. -/
theorem exec_lock (hcode : m.code (m.context c) = i :: rest) :
    (m.exec c).lock = i.onLock m.smp (m.context c) m.lock := by
  simp only [Machine.exec, hcode]

/-- What an instruction does to the context of its core. -/
theorem exec_context (hcode : m.code (m.context c) = i :: rest) :
    (m.exec c).context = Function.update m.context c (i.onContext (m.context c)) := by
  simp only [Machine.exec, hcode]

/-- The instructions that are left for the thread that ran. -/
theorem exec_code (hcode : m.code (m.context c) = i :: rest) :
    (m.exec c).code = Function.update m.code (m.context c)
      ((i.exec m.toKernel c (m.context c)).2 ++ rest) := by
  simp only [Machine.exec, hcode]

/-- What an instruction does to the interrupts of its core. -/
theorem exec_interrupts (hcode : m.code (m.context c) = i :: rest) :
    (m.exec c).interrupts = Function.update m.interrupts c (i.onInterrupts (m.interrupts c)) := by
  simp only [Machine.exec, hcode]

/-! ## One CPU by itself -/

/-- The CPU `c` alone brings its thread to the code `rest`, and the kernel is `k` then. -/
def Comes (m : Machine) (c : Nat) (k : Kernel) (rest : List Instr) : Prop :=
  ∃ n, ((fun m => m.exec c)^[n] m).toKernel = k ∧
    ((fun m => m.exec c)^[n] m).context c = m.context c ∧
    ((fun m => m.exec c)^[n] m).code (m.context c) = rest

variable {k : Kernel}

/-- No instruction has been executed yet. -/
theorem Comes.refl (m : Machine) (c : Nat) : m.Comes c m.toKernel (m.code (m.context c)) :=
  ⟨0, rfl, rfl, rfl⟩

/-- One more instruction, as long as it switches no context. -/
theorem Comes.step (h : m.Comes c k (i :: rest)) (hi : i.onContext (m.context c) = m.context c) :
    m.Comes c (i.exec k c (m.context c)).1 ((i.exec k c (m.context c)).2 ++ rest) := by
  obtain ⟨n, hk, hcontext, hcode⟩ := h
  refine ⟨n + 1, ?_, ?_, ?_⟩ <;> rw [Function.iterate_succ_apply']
  · rw [exec_toKernel (hcontext ▸ hcode), hk, hcontext]
  · rw [exec_context (hcontext ▸ hcode), Function.update_self, hcontext, hi]
  · rw [exec_code (hcontext ▸ hcode), hk, hcontext, Function.update_self]

/-- A call of `Thread::setPriority`, from its `lock()` to its `unlock()`. -/
theorem Comes.setPriority {u : Tid} {p : Int} (h : m.Comes c k (Thread.setPriority u p ++ rest)) :
    m.Comes c (k.setRank u p) rest :=
  have hlocked := (Comes.step h rfl).step rfl
  ((hlocked.step rfl).step rfl).step rfl

/-- The writes of a part of `p()` or `v()`, and the call that is left of it. -/
theorem Comes.settle {r : Sync × List Instr} (hone : SemaphoreRT.AtMostOne r.2)
    (h : m.Comes c { k with toSync := r.1 } (r.2 ++ rest)) :
    m.Comes c { k with toSync := SemaphoreRT.settle r } rest := by
  obtain ⟨σ, code⟩ := r
  obtain hnil | ⟨u, p, hcall⟩ := hone
  · obtain rfl : code = [] := hnil
    exact h
  · obtain rfl : code = Thread.setPriority u p := hcall
    exact h.setPriority

/-- By itself a CPU gets through `p()` of an owned class as through one step: to the end of the
    locked part, or to the switch of the context in `sleep()`. -/
theorem p_alone {s : Sid} (hk : (m.sem s).protocol.owned)
    (hcode : m.code (m.context c) = .own s :: .p s true :: rest) :
    ((m.toSync.p s (m.context c)).2 = false →
      m.Comes c { m.toKernel with toSync := (m.toSync.p s (m.context c)).1 } rest) ∧
    ((m.toSync.p s (m.context c)).2 = true →
      m.Comes c ((m.toKernel.callP (m.context c) s).leave (m.context c) .waiting)
        (((m.toKernel.callP (m.context c) s).leave (m.context c) .waiting).switchCode c
          (m.context c) ++ rest)) := by
  have hown : m.Comes c
      { m.toKernel with toSync := SemaphoreRT.settle (SemaphoreRT.own m.toSync s (m.context c)) }
      (.p s true :: rest) :=
    .settle (SemaphoreRT.atMostOne_own _ _ _) ((hcode ▸ Comes.refl m c).step rfl)
  have hp := hown.step rfl
  rw [SemaphoreRT.p_eq_own hk, Kernel.callP, SemaphoreRT.p_eq_own hk]
  constructor
  · intro hstays
    simpa [Instr.exec, hstays] using hp
  · intro hsleeps
    simpa [Instr.exec, Instr.sleep, hsleeps] using hp

/-- The ownership part of `v()`, by itself. -/
theorem comes_disown {s : Sid} (hcode : m.code (m.context c) = .disown s :: rest) :
    m.Comes c { m.toKernel with
      toSync :=
        if (m.sem s).owner = some (m.context c) then
          SemaphoreRT.settle (SemaphoreRT.handOff
            (m.toSync.setPriority (m.context c) (m.sem s).priority) s)
        else m.toSync } rest := by
  have hdisown := (hcode ▸ Comes.refl m c).step rfl
  simp only [Instr.exec, SemaphoreRT.disown] at hdisown
  split at hdisown
  · rename_i howner
    rw [if_pos howner]
    rw [List.append_assoc] at hdisown
    exact .settle (SemaphoreRT.atMostOne_handOff _ _) (hdisown.setPriority.step rfl)
  · rename_i howner
    rw [if_neg howner]
    exact hdisown

/-- And through `v()`: to the end of the locked part, or to the switch in `wakeup()`. -/
theorem v_alone {s : Sid} (hk : (m.sem s).protocol.owned)
    (hcode : m.code (m.context c) = .disown s :: .v s true :: rest) :
    ((m.toSync.v s (m.context c)).2 = none →
      m.Comes c { m.toKernel with toSync := (m.toSync.v s (m.context c)).1 }
        ((if (m.sem s).value < 0 then Thread.unlock else []) ++ rest)) ∧
    ∀ u, (m.toSync.v s (m.context c)).2 = some u →
      m.Comes c ((m.interruptV (m.context c) s).enter c u)
        (((m.interruptV (m.context c) s).enter c u).switchCode c (m.context c) ++ rest) := by
  have hv := (comes_disown hcode).step rfl
  have hvalue : ((if (m.sem s).owner = some (m.context c) then
      SemaphoreRT.settle (SemaphoreRT.handOff
        (m.toSync.setPriority (m.context c) (m.sem s).priority) s)
      else m.toSync).sem s).value = (m.sem s).value := by
    split
    · have hset := (Sync.SameQueues.refl m.toSync s).setPriority (m.context c) (m.sem s).priority
      exact (SemaphoreRT.sameQueues_settle (hset.trans (SemaphoreRT.sameQueues_handOff _ s))
        (SemaphoreRT.atMostOne_handOff _ s)).value
    · rfl
  rw [Kernel.interruptV, SemaphoreRT.v_eq_handOff hk]
  simp only [Instr.exec, hvalue] at hv
  constructor
  · intro hnone
    simpa [hnone] using hv
  · intro u hwoken
    simpa [hwoken] using hv

end Machine

end Epos
