import Epos.Kernel.SchedulingList

/-!
# Threads and their scheduler

The operations of `thread.cc` on the scheduling lists of the cores, with `p()` and
`v()` calling `sleep()` and `wakeup()`. One operation, up to the context switch it
may end in, is one step: it runs with the interrupts of its core off and, on more
than one core, with `Thread::_lock` taken. What a thread still has to do in a
`p()` or `v()` in which it was switched out is its `call`; it does that in a step
of its own (`ret`), once a core has switched back to it.

A partitioned scheduler is modelled: a thread stays on the core that its
criterion's `queue()` names. An inter-processor interrupt is a `reschedule` of the
other core at any later time, and so is a time slice.
-/

namespace Epos

inductive State where
  | running
  | ready
  | suspended
  | waiting
  | finishing
  deriving DecidableEq, Repr

/-- A call that its thread has not returned from. -/
inductive Call where
  | p (s : Sid)
  | v (s : Sid)
  | join (u : Tid)
  deriving DecidableEq, Repr

def Call.isJoin : Call → Bool
  | .join _ => true
  | .p _ | .v _ => false

/-- `RT_Common::Elector`. -/
inductive Elector where
  | always
  | srp
  | msrp
  deriving DecidableEq, Repr

/-- `Semaphore_SRP::DEFAULT_CEILING`. -/
def defaultCeiling : Int := -2147483647

/-- What a run does not change: the traits of the system, the `queue()`, the
    `preempt_level` and the `_deadline` of the threads' criteria, and the live SRP
    and MSRP resources. -/
structure System where
  preemptive : Bool := true
  smp : Bool := false
  cores : Nat := 1
  elector : Elector := .always
  idle : Nat → Tid
  core : Tid → Nat := fun _ => 0
  level : Tid → Int := fun _ => 0
  deadline : Tid → Int := fun _ => 0
  srpResources : List Sid := []
  msrpResources : List Sid := []

/-- The scheduler and the synchronizers. `state t = none` is a thread that has not
    been constructed; `call` and `inside` are its calls in progress and the resources
    whose `p()` it has completed without a `v()` yet, latest first. -/
structure Kernel extends Sync, System where
  state : Tid → Option State
  sched : Nat → SchedulingList
  joining : Tid → Option Tid := fun _ => none
  srpCeiling : Int := defaultCeiling
  msrpCeiling : Nat → Int := fun _ => 0
  call : Tid → Option Call := fun _ => none
  inside : Tid → List Sid := fun _ => []

/-- The classes that guard a critical section. -/
def Protocol.resource : Protocol → Bool
  | .condition | .plain => false
  | _ => true

namespace Kernel

/-- `Thread::running()` on the core `c`. -/
def running (k : Kernel) (c : Nat) : Option Tid := (k.sched c).chosen

/-- `Elector::eligible`, asked on the core `c`; `Thread::self()` is the thread that
    is chosen there. The elector has the criterion as an `RT_Common`, so the MSRP one
    looks up the system ceiling of `Priority::queue()`, whatever the core of `t`. -/
def eligible (k : Kernel) (c : Nat) (t : Tid) : Bool :=
  match k.elector with
  | .always => true
  | .srp =>
    k.priority t = Priority.idle || k.priority t = Priority.main ||
      (k.running c).all (k.level · = 0) || k.srpCeiling < k.level t
  | .msrp =>
    k.priority t = Priority.idle || k.priority t = Priority.main ||
      (k.running c).all (k.level · = 0) || k.msrpCeiling Priority.queue < k.level t

/-! ## Scheduling -/

def setState (k : Kernel) (t : Tid) (st : State) : Kernel :=
  { k with state := Function.update k.state t (some st) }

def setSched (k : Kernel) (c : Nat) (f : SchedulingList → SchedulingList) : Kernel :=
  { k with sched := Function.update k.sched c (f (k.sched c)) }

/-- `_scheduler.insert` and `_scheduler.resume`. -/
def insert (k : Kernel) (t : Tid) : Kernel :=
  k.setSched (k.core t) fun l => l.insert k.priority t

/-- `_scheduler.remove` and `_scheduler.suspend`. -/
def remove (k : Kernel) (t : Tid) : Kernel :=
  k.setSched (k.core t) fun l => l.remove t

/-- `Thread::dispatch(prev, running())` on the core `c`, up to the context switch. -/
def dispatch (k : Kernel) (c : Nat) (prev : Tid) : Kernel :=
  match k.running c with
  | none => k
  | some next =>
    if prev = next then k
    else
      -- A thread that waits or is suspended has its state already.
      let k := if k.state prev = some .running then k.setState prev .ready else k
      k.setState next .running

/-- `Thread::reschedule()` on the core `c`. -/
def reschedule (k : Kernel) (c : Nat) : Kernel :=
  match k.running c with
  | none => k
  | some prev => (k.setSched c fun l => l.choose k.priority (k.eligible c)).dispatch c prev

/-- `if(preemptive) reschedule(cpu)`, called on the core `c`. -/
def preempt (k : Kernel) (c cpu : Nat) : Kernel :=
  -- Another core is interrupted, and nothing changes until it reschedules.
  if k.preemptive ∧ (¬k.smp ∨ cpu = c) then k.reschedule c else k

/-- The running thread `t` gives its core up in the state `st`. -/
def leave (k : Kernel) (t : Tid) (st : State) : Kernel :=
  ((k.setState t st).remove t).dispatch (k.core t) t

/-- `t` becomes ready; the core `c` runs the caller. -/
def enter (k : Kernel) (c : Nat) (t : Tid) : Kernel :=
  ((k.setState t .ready).insert t).preempt c (k.core t)

/-! ## Ceilings of SRP and MSRP -/

/-- The loop over `_tasks` in `updateCeiling`, restricted to the tasks in `on`. -/
def maxCeil (k : Kernel) (s : Sid) (on : Tid → Bool) : Int :=
  (k.sem s).tasks.foldl
    (fun maxCeil t =>
      if on t ∧ (k.sem s).value < 1 ∧ k.state t ≠ some .running ∧ maxCeil < k.level t then
        k.level t
      else maxCeil)
    defaultCeiling

/-- The loop over `_resources` in `updateSystemCeiling`. -/
def maxResource (k : Kernel) (cpu : Nat) : List Sid → Int
  | [] => defaultCeiling
  | s :: rest =>
    rest.foldl (fun m s => if m < k.ceiling s cpu then k.ceiling s cpu else m) (k.ceiling s cpu)

/-- `Semaphore_Ceiling::ceiling(ceiling, cpu)` for the ceilings of all cores in `f`. -/
def setCeilings (k : Kernel) (s : Sid) (f : Nat → Int) : Kernel :=
  { k with store := Function.update k.store (k.sem s).ceilings f }

/-- `Semaphore_SRP::updateCeiling`. -/
def updateSrpCeiling (k : Kernel) (s : Sid) : Kernel :=
  let k := k.setCeilings s (Function.update (k.store (k.sem s).ceilings) 0
    (k.maxCeil s fun _ => true))
  { k with srpCeiling := k.maxResource 0 k.srpResources }

/-- `Semaphore_MSRP::updateCeiling`. Without resources only core 0 is reset. -/
def updateMsrpCeiling (k : Kernel) (s : Sid) : Kernel :=
  let k := k.setCeilings s fun c =>
    if c < k.cores then k.maxCeil s (k.core · = c) else k.store (k.sem s).ceilings c
  { k with
    msrpCeiling := fun c =>
      if c < k.cores ∧ (k.msrpResources = [] → c = 0) then k.maxResource c k.msrpResources
      else k.msrpCeiling c }

/-- What follows `Base::p(true)` and `Base::v(true)` in the class of `s`. -/
def updateCeiling (k : Kernel) (s : Sid) : Kernel :=
  match (k.sem s).protocol with
  | .srp => k.updateSrpCeiling s
  | .msrp => k.updateMsrpCeiling s
  | _ => k

/-! ## Calls -/

def endCall (k : Kernel) (t : Tid) : Kernel :=
  { k with call := Function.update k.call t none }

def hold (k : Kernel) (t : Tid) (s : Sid) : Kernel :=
  { k with inside := Function.update k.inside t (s :: k.inside t) }

/-- `t` returns from its call; after a `p()` it is inside the critical section. -/
def complete (k : Kernel) (t : Tid) : Kernel :=
  match k.call t with
  | some (.p s) =>
    let k := (k.endCall t).updateCeiling s
    if (k.sem s).protocol.resource then k.hold t s else k
  | some (.v s) => (k.endCall t).updateCeiling s
  | some (.join _) | none => k.endCall t

/-- `p()` up to the `sleep()` that it may call. -/
def callP (k : Kernel) (t : Tid) (s : Sid) : Kernel :=
  { k with
    toSync := (k.toSync.p s t).1
    call := Function.update k.call t (some (.p s)) }

/-- `p()`, called by the running thread `t`. -/
def p (k : Kernel) (t : Tid) (s : Sid) : Kernel :=
  if (k.toSync.p s t).2 then (k.callP t s).leave t .waiting else (k.callP t s).complete t

/-- `v()` up to the point where `wakeup()` has taken a thread off the queue. -/
def callV (k : Kernel) (t : Tid) (s : Sid) : Kernel :=
  { k with
    toSync := (k.toSync.v s t).1
    call := Function.update k.call t (some (.v s))
    inside := Function.update k.inside t ((k.inside t).erase s) }

/-- `v()`, called by the running thread `t`. -/
def v (k : Kernel) (t : Tid) (s : Sid) : Kernel :=
  match (k.toSync.v s t).2 with
  | none => (k.callV t s).complete t
  | some u =>
    let k := (k.callV t s).enter (k.core t) u
    -- Switched out by `wakeup()`, the caller returns later.
    if k.running (k.core t) = some t then k.complete t else k

/-- The constructor of a thread in the state `st`, on the core `c`. -/
def create (k : Kernel) (c : Nat) (t : Tid) (st : State) : Kernel :=
  -- The prologue inserts every thread, and the epilogue suspends some.
  let k := (k.setState t st).insert t
  let k := if st ≠ .ready ∧ st ≠ .running then k.remove t else k
  if st = .ready ∧ k.priority t ≠ Priority.idle then k.preempt c (k.core t) else k

/-- `Thread::yield`, called by the running thread `t`. -/
def yield (k : Kernel) (t : Tid) : Kernel :=
  (k.setSched (k.core t) fun l =>
    l.chooseAnother k.priority (k.eligible (k.core t))).dispatch (k.core t) t

/-- `exit()` resumes the thread that joined `t`. -/
def resumeJoiner (k : Kernel) (t : Tid) : Kernel :=
  match k.joining t with
  | none => k
  | some j =>
    { (k.setState j .ready).insert j with joining := Function.update k.joining t none }

/-- `Thread::exit`, called by the running thread `t`. -/
def exit (k : Kernel) (t : Tid) : Kernel :=
  let c := k.core t
  let k := ((k.setState t .finishing).remove t).resumeJoiner t
  (k.setSched c fun l => l.choose k.priority (k.eligible c)).dispatch c t

/-- `join()` up to its `suspend()`. -/
def callJoin (k : Kernel) (t u : Tid) : Kernel :=
  { k with
    joining := Function.update k.joining u (some t)
    call := Function.update k.call t (some (.join u)) }

/-- `u.join()`, called by the running thread `t`. -/
def join (k : Kernel) (t u : Tid) : Kernel :=
  if k.state u = some .finishing then k else (k.callJoin t u).leave t .suspended

/-- `u.suspend()`, called by the running thread `t`. -/
def suspend (k : Kernel) (t u : Tid) : Kernel :=
  ((k.setState u .suspended).remove u).dispatch (k.core t) t

/-- `u.resume()`, called on the core `c`. -/
def resume (k : Kernel) (c : Nat) (u : Tid) : Kernel :=
  if k.state u = some .suspended then k.enter c u else k

/-- `v()` from a handler that interrupts `t`, up to the same point. -/
def interruptV (k : Kernel) (t : Tid) (s : Sid) : Kernel :=
  { k with toSync := (k.toSync.v s t).1 }

/-- `Semaphore_Handler`: `v()` from a handler that interrupts the core `c`. -/
def handler (k : Kernel) (c : Nat) (s : Sid) : Kernel :=
  match k.running c with
  | none => k
  | some t =>
    match (k.toSync.v s t).2 with
    | none => k.interruptV t s
    | some u => (k.interruptV t s).enter c u

/-- `criterion().setPriority(prio)`: the rank changes in place. -/
def setRank (k : Kernel) (u : Tid) (prio : Int) : Kernel :=
  { k with toSync := k.toSync.setPriority u prio }

/-- `Thread::priority` up to its `reschedule()`, with a criterion of the same queue. -/
def reorder (k : Kernel) (u : Tid) (prio : Int) : Kernel :=
  -- The running thread is in no queue.
  if k.state u ≠ some .running then ((k.remove u).setRank u prio).insert u
  else k.setRank u prio

/-- `Thread::priority`, called on the core `c`. The branches that reschedule without
    `smp` are commented out. -/
def setCriterion (k : Kernel) (c : Nat) (u : Tid) (prio : Int) : Kernel :=
  let k := k.reorder u prio
  if k.smp then k.preempt c (k.core u) else k

/-- `EDF::update`, called by the `Dynamic_Handler` of `u`; `elapsed` is
    `Alarm::elapsed()`. -/
def update (k : Kernel) (u : Tid) (elapsed : Int) : Kernel :=
  if Priority.high < k.priority u ∧ k.priority u < Priority.normal then
    k.setRank u (toInt (elapsed + k.deadline u))
  else k

end Kernel

/-! ## Runs -/

inductive Action where
  | p (t : Tid) (s : Sid)
  | v (t : Tid) (s : Sid)
  | ret (t : Tid)
  | create (c : Nat) (t : Tid) (st : State)
  | yield (t : Tid)
  | exit (t : Tid)
  | join (t u : Tid)
  | suspend (t u : Tid)
  | resume (c : Nat) (u : Tid)
  | reschedule (c : Nat)
  | handler (c : Nat) (s : Sid)
  | priority (c : Nat) (u : Tid) (prio : Int)
  | update (u : Tid) (elapsed : Int)
  deriving DecidableEq, Repr

namespace Kernel

def step (k : Kernel) : Action → Kernel
  | .p t s => k.p t s
  | .v t s => k.v t s
  | .ret t => k.complete t
  | .create c t st => k.create c t st
  | .yield t => k.yield t
  | .exit t => k.exit t
  | .join t u => k.join t u
  | .suspend t u => k.suspend t u
  | .resume c u => k.resume c u
  | .reschedule c => k.reschedule c
  | .handler c s => k.handler c s
  | .priority c u prio => k.setCriterion c u prio
  | .update u elapsed => k.update u elapsed

/-- `t` is running and not on its way back from a call. -/
def Active (k : Kernel) (t : Tid) : Prop :=
  k.running (k.core t) = some t ∧ k.call t = none

/-- What the kernel relies on: operations are called by running threads or by
    handlers, the idle threads never give their cores up, and `join()`, `suspend()`,
    `resume()` and `priority()` are called on threads in a state that they handle. -/
def CanAct (k : Kernel) : Action → Prop
  | .p t _ | .exit t => k.Active t ∧ t ≠ k.idle (k.core t)
  | .v t _ | .yield t => k.Active t
  | .ret t => k.running (k.core t) = some t ∧ k.call t ≠ none
  | .create c t st =>
    c < k.cores ∧ k.state t = none ∧ k.core t < k.cores ∧ (st = .ready ∨ st = .suspended)
  | .join t u =>
    k.Active t ∧ t ≠ k.idle (k.core t) ∧ u ≠ t ∧ k.joining u = none ∧ k.state u ≠ none
  | .suspend t u =>
    k.Active t ∧ u ≠ k.idle (k.core u) ∧ (u = t ∨ k.state u = some .ready)
  | .resume c u => c < k.cores ∧ ¬(k.call u).any Call.isJoin
  | .reschedule c => c < k.cores
  | .handler c s => c < k.cores ∧ ¬(k.sem s).protocol.resource
  | .priority c u _ => c < k.cores ∧ (k.state u = some .running ∨ k.state u = some .ready)
  | .update _ _ => True

instance (k : Kernel) (t : Tid) : Decidable (k.Active t) :=
  inferInstanceAs (Decidable (_ ∧ _))

instance (k : Kernel) (a : Action) : Decidable (k.CanAct a) :=
  match a with
  | .p t _ | .exit t => inferInstanceAs (Decidable (k.Active t ∧ t ≠ k.idle (k.core t)))
  | .v t _ | .yield t => inferInstanceAs (Decidable (k.Active t))
  | .ret t => inferInstanceAs (Decidable (k.running (k.core t) = some t ∧ k.call t ≠ none))
  | .create c t st =>
    inferInstanceAs (Decidable
      (c < k.cores ∧ k.state t = none ∧ k.core t < k.cores ∧ (st = .ready ∨ st = .suspended)))
  | .join t u =>
    inferInstanceAs (Decidable
      (k.Active t ∧ t ≠ k.idle (k.core t) ∧ u ≠ t ∧ k.joining u = none ∧ k.state u ≠ none))
  | .suspend t u =>
    inferInstanceAs (Decidable
      (k.Active t ∧ u ≠ k.idle (k.core u) ∧ (u = t ∨ k.state u = some .ready)))
  | .resume c u => inferInstanceAs (Decidable (c < k.cores ∧ ¬(k.call u).any Call.isJoin))
  | .reschedule c => inferInstanceAs (Decidable (c < k.cores))
  | .handler c s => inferInstanceAs (Decidable (c < k.cores ∧ ¬(k.sem s).protocol.resource))
  | .priority c u _ =>
    inferInstanceAs (Decidable
      (c < k.cores ∧ (k.state u = some .running ∨ k.state u = some .ready)))
  | .update _ _ => isTrue trivial

end Kernel

end Epos
