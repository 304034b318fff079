import Epos.ForStd.RecursiveLock
import Epos.ForStd.TransitionSystem
import Epos.Kernel.Thread

/-!
# The CPUs, one step at a time

`p()` and `v()` cut where `Thread::_lock` is acquired or released, where interrupts
are switched and where a context is: every thread carries the instructions that it
still has to execute in the kernel, and a step is one instruction of the thread
whose context a CPU executes. What stands between two cuts is one instruction, made
of the functions in `Epos.Kernel.Thread`.

An interrupt (time slice or inter-processor interrupt) is taken when its CPU has
interrupts enabled, except inside `dispatch()`, where `Thread::self()` is already
the next thread and the handler would save one context in the place of another.
-/

namespace Epos

/-- `Thread::_lock`. `acquire()` waits until the lock is free or owned by the caller;
    `release()` does not look at the owner. -/
abbrev Spin := RecursiveLock Tid

/-! ## Instructions -/

inductive Instr where
  | intDisable
  | intEnable
  | acquire
  | release
  | switchContext (next : Tid)
  /-- `criterion().setPriority(prio)` in `Thread::setPriority`. -/
  | setPriority (u : Tid) (prio : Int)
  /-- The ownership part of `p()`, up to a `setPriority()` that it ends in. -/
  | own (s : Sid)
  /-- `if(owner() == currentThread())` in `v()`. -/
  | disown (s : Sid)
  /-- `v()` from `nextThread()` on, up to a `setPriority()` that it ends in. -/
  | handOff (s : Sid)
  /-- `Semaphore_Template::p(locked)` from `fdec` on, up to the release in `dispatch()`. -/
  | p (s : Sid) (locked : Bool)
  /-- `Semaphore_Template::v(locked)` from `finc` on, up to the release. -/
  | v (s : Sid) (locked : Bool)
  | updateCeiling (s : Sid)
  /-- `Thread::reschedule()` up to the release in `dispatch()`. -/
  | reschedule
  /-- The call is over. -/
  | ret
  deriving DecidableEq, Repr

/-- `Thread::lock`. -/
def Thread.lock : List Instr := [.intDisable, .acquire]

/-- `Thread::unlock`. -/
def Thread.unlock : List Instr := [.release, .intEnable]

/-- `Thread::setPriority`. -/
def Thread.setPriority (u : Tid) (p : Int) : List Instr :=
  Thread.lock ++ .setPriority u p :: Thread.unlock

/-- `Thread::rescheduler` and `Thread::time_slicer`. -/
def Thread.rescheduler : List Instr := Thread.lock ++ [.reschedule]

/-- The body of `p()` between `begin_atomic()` and `end_atomic()`. -/
def Protocol.bodyP (k : Protocol) (s : Sid) : List Instr :=
  match k with
  | .pip | .ipcp | .pcp | .mpcp _ => [.own s, .p s true]
  | .srp | .msrp => [.p s true, .updateCeiling s]
  | .plain | .condition => [.p s false]

/-- The body of `v()` between `begin_atomic()` and `end_atomic()`. -/
def Protocol.bodyV (k : Protocol) (s : Sid) : List Instr :=
  match k with
  | .pip | .ipcp | .pcp | .mpcp _ => [.disown s, .v s true]
  | .srp | .msrp => [.v s true, .updateCeiling s]
  | .plain | .condition => [.v s false]

/-- `begin_atomic(); body; end_atomic();`. `Semaphore::p` and `Semaphore::v` leave
    the `end_atomic()` to their branches. -/
def Protocol.atomic (k : Protocol) (body : List Instr) : List Instr :=
  Thread.lock ++ body ++ (if k.resource then Thread.unlock else []) ++ [.ret]

/-- What follows the locked part of `dispatch(prev, running())` on the core `c`. -/
def Kernel.switchCode (k : Kernel) (c : Nat) (prev : Tid) : List Instr :=
  match k.running c with
  | none => Thread.unlock
  | some next =>
    if prev = next then Thread.unlock else [.release, .switchContext next, .intEnable]

/-! ## What the classes with an owner do

Each function gives the writes up to the next `setPriority()` and the code of that
call, if there is one. -/

namespace SemaphoreRT

/-- What a class does to the thread that has just become the owner. -/
def take (σ : Sync) (s : Sid) (own : Tid) : Sync × List Instr :=
  let σ := SemaphorePIP.saveOwner σ s own
  match (σ.sem s).protocol with
  | .ipcp => (σ, Thread.setPriority own (σ.ceiling s))
  | .mpcp highestPriority =>
    (σ, Thread.setPriority own (SemaphoreMPCP.toGlobalCeiling highestPriority (σ.sem s).priority))
  | _ => (σ, [])

/-- What a class does to the owner when `t` asks for the semaphore. -/
def contend (σ : Sync) (s : Sid) (own t : Tid) : List Instr :=
  match (σ.sem s).protocol with
  | .pip =>
    if σ.priority t < σ.priority own then Thread.setPriority own (σ.priority t) else []
  | .pcp => if σ.ceiling s < σ.priority own then Thread.setPriority own (σ.ceiling s) else []
  | _ => []

def own (σ : Sync) (s : Sid) (t : Tid) : Sync × List Instr :=
  match (σ.sem s).owner with
  | none => take (σ.setOwner s (some t)) s t
  | some own => (σ, contend σ s own t)

def disown (σ : Sync) (s : Sid) (t : Tid) : List Instr :=
  if (σ.sem s).owner = some t then
    Thread.setPriority t (σ.sem s).priority ++ [.handOff s]
  else []

def handOff (σ : Sync) (s : Sid) : Sync × List Instr :=
  match σ.nextThread s with
  | some next => take (σ.setOwner s (some next)) s next
  | none => ((σ.setOwner s none).savePriority s 0, [])

end SemaphoreRT

/-! ## Steps -/

/-- `lock` is `_lock`, `context c` the thread whose context the CPU `c` executes,
    `code t` what `t` still has to execute in the kernel, and `interrupts c` whether
    `c` takes interrupts. -/
structure Machine extends Kernel where
  lock : Spin := {}
  context : Nat → Tid
  code : Tid → List Instr := fun _ => []
  interrupts : Nat → Bool := fun _ => true

namespace Instr

/-- `sleep()` of `t` on the queue of `s`, after the counter has been decremented. -/
def sleep (k : Kernel) (t : Tid) (s : Sid) : Kernel :=
  { k with
    toSync := (SemaphoreTemplate.p k.toSync s t).1
    call := Function.update k.call t (some (.p s)) }.leave t .waiting

/-- What the instruction does to the kernel when `t` executes it on the core `c`,
    and the code that `t` has to execute next. -/
def exec (k : Kernel) (c : Nat) (t : Tid) : Instr → Kernel × List Instr
  | .intDisable | .intEnable | .acquire | .release | .switchContext _ => (k, [])
  | .setPriority u prio => (k.setRank u prio, [])
  | .own s =>
    let (σ, code) := SemaphoreRT.own k.toSync s t
    ({ k with toSync := σ }, code)
  | .disown s => (k, SemaphoreRT.disown k.toSync s t)
  | .handOff s =>
    let (σ, code) := SemaphoreRT.handOff k.toSync s
    ({ k with toSync := σ }, code)
  | .p s locked =>
    -- `sleep()` ends in `dispatch()`, which gives up the lock even when the caller holds on to it.
    if (SemaphoreTemplate.p k.toSync s t).2 then
      let k := sleep k t s
      (k, k.switchCode c t)
    else
      ({ k with toSync := (SemaphoreTemplate.p k.toSync s t).1 },
        if locked then [] else Thread.unlock)
  | .v s locked =>
    let wakes := (k.sem s).value < 0
    let (σ, woken) := SemaphoreTemplate.v k.toSync s
    let k := { k with toSync := σ }
    match woken with
    | some u =>
      let k := k.enter c u
      (k, k.switchCode c t)
    -- `wakeup()` unlocks also when there is nobody on the queue, whatever `locked` says.
    | none => (k, if wakes ∨ ¬locked then Thread.unlock else [])
  | .updateCeiling s => (k.updateCeiling s, [])
  | .reschedule =>
    let k := k.reschedule c
    (k, k.switchCode c t)
  | .ret => (k.endCall t, [])

def onLock (smp : Bool) (t : Tid) (l : Spin) : Instr → Spin
  | .acquire => if smp then l.acquire t else l
  | .release => if smp then l.release else l
  | _ => l

def onInterrupts (enabled : Bool) : Instr → Bool
  | .intDisable => false
  | .intEnable => true
  | _ => enabled

def onContext (context : Tid) : Instr → Tid
  | .switchContext next => next
  | _ => context

end Instr

inductive MachineAction where
  | p (c : Nat) (s : Sid)
  | v (c : Nat) (s : Sid)
  | interrupt (c : Nat)
  | step (c : Nat)
  deriving DecidableEq, Repr

namespace Machine

def push (m : Machine) (t : Tid) (code : List Instr) : Machine :=
  { m with code := Function.update m.code t (code ++ m.code t) }

/-- The instruction that the CPU `c` executes next. -/
def instr (m : Machine) (c : Nat) : Option Instr := (m.code (m.context c)).head?

/-- The thread on the CPU `c` executes its next instruction. -/
def exec (m : Machine) (c : Nat) : Machine :=
  let t := m.context c
  match m.code t with
  | [] => m
  | i :: rest =>
    let (k, code) := i.exec m.toKernel c t
    { toKernel := k
      lock := i.onLock m.smp t m.lock
      context := Function.update m.context c (i.onContext t)
      code := Function.update m.code t (code ++ rest)
      interrupts := Function.update m.interrupts c (i.onInterrupts (m.interrupts c)) }

def step (m : Machine) : MachineAction → Machine
  | .p c s =>
    let k := (m.sem s).protocol
    m.push (m.context c) (k.atomic (k.bodyP s))
  | .v c s =>
    let k := (m.sem s).protocol
    m.push (m.context c) (k.atomic (k.bodyV s))
  | .interrupt c =>
    { m.push (m.context c) Thread.rescheduler with
      interrupts := Function.update m.interrupts c false }
  | .step c => m.exec c

/-- Semaphores are called from outside the kernel, by idle threads only without
    sleeping, and an `acquire()` is over when the lock is free or the caller's. -/
def CanAct (m : Machine) : MachineAction → Prop
  | .p c s =>
    c < m.cores ∧ m.code (m.context c) = [] ∧ m.context c ≠ m.idle c ∧
      (m.sem s).protocol ≠ .condition
  | .v c s => c < m.cores ∧ m.code (m.context c) = [] ∧ (m.sem s).protocol ≠ .condition
  | .interrupt c => c < m.cores ∧ m.interrupts c ∧ m.running c = some (m.context c)
  | .step c =>
    c < m.cores ∧ (m.instr c).isSome ∧
      (m.instr c = some .acquire → m.smp → m.lock.CanAcquire (m.context c))

instance (m : Machine) (a : MachineAction) : Decidable (m.CanAct a) :=
  match a with
  | .p c s =>
    inferInstanceAs (Decidable (c < m.cores ∧ m.code (m.context c) = [] ∧
      m.context c ≠ m.idle c ∧ (m.sem s).protocol ≠ .condition))
  | .v c s =>
    inferInstanceAs (Decidable
      (c < m.cores ∧ m.code (m.context c) = [] ∧ (m.sem s).protocol ≠ .condition))
  | .interrupt c =>
    inferInstanceAs (Decidable
      (c < m.cores ∧ m.interrupts c ∧ m.running c = some (m.context c)))
  | .step c =>
    inferInstanceAs (Decidable
      (c < m.cores ∧ (m.instr c).isSome ∧
        (m.instr c = some .acquire → m.smp → m.lock.CanAcquire (m.context c))))

end Machine

end Epos
