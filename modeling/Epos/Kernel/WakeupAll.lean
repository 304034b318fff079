import Epos.Kernel.Machine

/-!
# `wakeup_all()` on several CPUs

`Thread::wakeup_all` for a `Thread_Queue` or a `FIFO_Queue`, cut where `reschedule()`
lets go of `_lock`: the loop that empties the queue is one step, and so is each pass of
the loop over the CPUs. While the caller does not own the lock, the other CPUs take and
release it, and the caller may be preempted and continued on any CPU.
-/

namespace Epos

/-- The bit of the queue `i` in the mask `cpus`. -/
def marked (cpus : BitVec 32) (i : Nat) : Bool := cpus &&& 1#32 <<< i ≠ 0

/-- The loop over the `n` threads that wait for `s`, with the mask `cpus`. -/
def Kernel.wakeAll (k : Kernel) (s : Sid) (cpus : BitVec 32) : Nat → Kernel × BitVec 32
  | 0 => (k, cpus)
  | n + 1 =>
    let (σ, woken) := k.dequeue s
    match woken with
    | none => (k, cpus)
    | some t =>
      let k := ({ k with toSync := σ }.setState t .ready).insert t
      k.wakeAll s (cpus ||| 1#32 <<< k.core t) n

/-- Where the caller is in `wakeup_all()`. -/
inductive WakeupPoint where
  /-- After `assert(locked())`. -/
  | start
  /-- At the test of the bit `i`. -/
  | loop (cpus : BitVec 32) (i : Nat)
  /-- In `reschedule(i)`, which has switched to another thread. -/
  | switched (cpus : BitVec 32) (i : Nat)
  | ret
  deriving DecidableEq, Repr

/-- The thread `self` calls `wakeup_all()` on the queue of `queue`; `cpu` is the CPU that
    it executes on and `queues` is `Criterion::QUEUES`. How often it has released the lock
    and which CPUs it has rescheduled is kept beside. -/
structure WakeupAll extends Kernel where
  queues : Nat
  queue : Sid
  self : Tid
  cpu : Nat
  lock : Spin
  point : WakeupPoint := .start
  releases : Nat := 0
  rescheduled : List Nat := []

/-- A step of the caller, or anything that the others do while the lock is not its own. -/
inductive WakeupAction where
  | step
  | others (k : Kernel) (lock : Spin) (cpu : Nat)

namespace WakeupAll

variable (s : WakeupAll)

/-- `_lock.release()`. -/
def release : WakeupAll :=
  { s with lock := if s.smp then s.lock.release else s.lock, releases := s.releases + 1 }

/-- `reschedule(i)`: `dispatch()` releases the lock before it switches the context, and
    another CPU is interrupted before the lock is released. -/
def reschedule (cpus : BitVec 32) (i : Nat) : WakeupAll :=
  if ¬s.smp ∨ i = s.cpu then
    let k := s.toKernel.reschedule s.cpu
    { s.release with
      toKernel := k
      rescheduled := i :: s.rescheduled
      point := if k.running s.cpu = some s.self then .loop cpus (i + 1) else .switched cpus i }
  else
    { s.release with rescheduled := i :: s.rescheduled, point := .loop cpus (i + 1) }

def step : WakeupAction → WakeupAll
  | .others k lock cpu => { s with toKernel := k, lock := lock, cpu := cpu }
  | .step =>
    match s.point with
    | .start =>
      -- nobody waits, and the lock is released at once
      if (s.sem s.queue).queue = [] then { s.release with point := .ret }
      else
        let (k, cpus) := s.wakeAll s.queue 0 (s.sem s.queue).queue.length
        -- without preemption no CPU is told, and the lock is released
        if k.preemptive then { s with toKernel := k, point := .loop cpus 0 }
        else { s.release with toKernel := k, point := .ret }
    | .loop cpus i =>
      -- one pass for each bit of the set of CPUs
      if i < s.queues then
        if marked cpus i then s.reschedule cpus i else { s with point := .loop cpus (i + 1) }
      else { s with point := .ret }
    | .switched cpus i => { s with point := .loop cpus (i + 1) }
    | .ret => s

/-- The caller goes on when its CPU executes it. -/
def CanAct : WakeupAction → Prop
  | .step => s.running s.cpu = some s.self ∧ s.point ≠ .ret
  | .others k lock _ =>
    s.lock.owner ≠ some s.self ∧ lock.owner ≠ some s.self ∧ k.smp = s.smp ∧
      k.preemptive = s.preemptive

/-- The call begins with the lock held once, on several CPUs and with a preemptive
    criterion; there are no more queues than the assertion in it allows. The `queue()` of
    a thread need not be one of them: a criterion with one queue may answer the number of
    the CPU. -/
structure Begins : Prop where
  smp : s.smp = true
  preemptive : s.preemptive = true
  queues_le : s.queues ≤ 32
  running : s.running s.cpu = some s.self
  lock : s.lock = { owner := some s.self, level := 1 }
  point : s.point = .start
  releases : s.releases = 0
  rescheduled : s.rescheduled = []

/-- The CPU that the next step of the caller reschedules. -/
def reschedules : Option Nat :=
  match s.point with
  | .loop cpus i => if i < s.queues ∧ marked cpus i then some i else none
  | _ => none

end WakeupAll

/-- A call of `wakeup_all()` among the other CPUs. -/
def wakingAll : TransitionSystem WakeupAll WakeupAction where
  Init s := s.Begins
  Enabled s a := s.CanAct a
  next s a := s.step a

end Epos
