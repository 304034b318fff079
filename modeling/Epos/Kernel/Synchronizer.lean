import Mathlib.Algebra.Group.Nat.Defs
import Mathlib.Data.Int.Basic
import Epos.ForStd.List

/-!
# Semaphores and their locking protocols

The synchronizers of `synchronizer.h` and `semaphore.cc` over the part of the
kernel that they touch: the current priorities of the threads, the semaphore
objects with their queues, and the arrays that hold ceilings. A `p()` or `v()`
is given here up to its `sleep()` or `wakeup()`: the result says whether the
caller goes to sleep, or which thread is taken off the queue. What the scheduler
then does is in `Epos.Kernel.Thread`.

Priorities are `int`s and a smaller number is more urgent.
-/

namespace Epos

/-- A `Thread *`. -/
abbrev Tid := Nat

/-- A synchronizer object. -/
abbrev Sid := Nat

/-! ## Priorities -/

namespace Priority

/-- `MAIN`, the priority of the main thread. -/
def main : Int := 0

/-- `HIGH`, which is also `PERIODIC`. -/
def high : Int := 1

/-- `NORMAL`, which is also `APERIODIC` and `SPORADIC`. -/
def normal : Int := 2147483645

/-- `IDLE`, the largest `int`. -/
def idle : Int := 2147483647

/-- `Priority::queue()`. It is not virtual, so through a pointer to a `Priority` or an
    `RT_Common` it is what a criterion with a queue of its own answers, too. -/
def queue : Nat := 0

end Priority

/-- The value of an `int` expression: 32 bits, two's complement. -/
def toInt (x : Int) : Int := x.bmod (2 ^ 32)

/-! ## State -/

/-- The class of a synchronizer object. `Semaphore_MPCP<true>` carries the
    `highest_priority` of its traits; `condition` is a bare `Thread_Queue`. -/
inductive Protocol where
  | condition
  | plain
  | pip
  | ipcp
  | pcp
  | mpcp (highestPriority : Int)
  | srp
  | msrp
  deriving DecidableEq, Repr

/-- The classes that keep an `_owner`: PIP, IPCP, PCP and MPCP. -/
def Protocol.owned : Protocol → Bool
  | .pip | .ipcp | .pcp | .mpcp _ => true
  | _ => false

/-- A semaphore object. `priority` is `_priority`, the priority to restore;
    `ceilings` is the pointer `_ceiling`. -/
structure Semaphore where
  protocol : Protocol
  value : Int := 1
  queue : List Tid := []
  owner : Option Tid := none
  priority : Int := 0
  ceilings : Nat := 0
  tasks : List Tid := []
  deriving DecidableEq, Repr

/-- What the synchronizers read and write. `priority` is the `_priority` of each
    thread's criterion and `store` the memory that the `_ceiling`s point into. -/
structure Sync where
  priority : Tid → Int
  sem : Sid → Semaphore
  store : Nat → Nat → Int

namespace Sync

/-- `Thread::setPriority`: the rank changes where the thread's link is. -/
def setPriority (σ : Sync) (t : Tid) (p : Int) : Sync :=
  { σ with priority := Function.update σ.priority t p }

def modify (σ : Sync) (s : Sid) (f : Semaphore → Semaphore) : Sync :=
  { σ with sem := Function.update σ.sem s (f (σ.sem s)) }

/-- `Semaphore_Ceiling::ceiling(cpu)`. -/
def ceiling (σ : Sync) (s : Sid) (cpu : Nat := 0) : Int :=
  σ.store (σ.sem s).ceilings cpu

/-- `Semaphore_RT::owner(own)`. -/
def setOwner (σ : Sync) (s : Sid) (own : Option Tid) : Sync :=
  σ.modify s fun m => { m with owner := own }

/-- `Semaphore_RT::priority(priority)`. -/
def savePriority (σ : Sync) (s : Sid) (p : Int) : Sync :=
  σ.modify s fun m => { m with priority := p }

/-- `Semaphore_RT::nextThread`. -/
def nextThread (σ : Sync) (s : Sid) : Option Tid :=
  (σ.sem s).queue.head?

/-- `_queue.insert(&prev->_link)` in `Thread::sleep`: a `Thread_Queue` is ordered
    by rank, the `FIFO_Queue` of `Semaphore_RT<false, true>` is not. -/
def enqueue (σ : Sync) (s : Sid) (t : Tid) : Sync :=
  σ.modify s fun m =>
    { m with
      queue := if m.protocol = .msrp then m.queue ++ [t] else m.queue.insertRank σ.priority t }

/-- `_queue.remove()` in `Thread::wakeup`, with the thread that it returns. -/
def dequeue (σ : Sync) (s : Sid) : Sync × Option Tid :=
  (σ.modify s fun m => { m with queue := m.queue.tail }, (σ.sem s).queue.head?)

end Sync

/-! ## The counter -/

/-- `Semaphore_Template::p(true)` up to its `sleep()`; also `Semaphore::p`. The
    flag tells whether the caller sleeps. -/
def SemaphoreTemplate.p (σ : Sync) (s : Sid) (t : Tid) : Sync × Bool :=
  let old := (σ.sem s).value
  let σ := σ.modify s fun m => { m with value := m.value - 1 }
  if old < 1 then (σ.enqueue s t, true) else (σ, false)

/-- `Semaphore_Template::v(true)` up to its `wakeup()`; also `Semaphore::v`. The
    thread is the one that `wakeup()` takes off the queue. -/
def SemaphoreTemplate.v (σ : Sync) (s : Sid) : Sync × Option Tid :=
  let old := (σ.sem s).value
  let σ := σ.modify s fun m => { m with value := m.value + 1 }
  if old < 0 then σ.dequeue s else (σ, none)

/-! ## Ownership

PIP, IPCP, PCP and MPCP share one shape. `take` is what a class does to the
thread that becomes the owner, `contend` what it does to the owner when another
thread asks for the semaphore. -/

/-- `p()` of a semaphore with an owner, called by `t`. -/
def SemaphoreRT.p (take : Sync → Sid → Tid → Sync) (contend : Sync → Sid → Tid → Tid → Sync)
    (σ : Sync) (s : Sid) (t : Tid) : Sync × Bool :=
  let σ := match (σ.sem s).owner with
    | none => take (σ.setOwner s (some t)) s t
    | some own => contend σ s own t
  SemaphoreTemplate.p σ s t

/-- `v()` of a semaphore with an owner, called by `t`. -/
def SemaphoreRT.v (take : Sync → Sid → Tid → Sync) (σ : Sync) (s : Sid) (t : Tid) :
    Sync × Option Tid :=
  let σ :=
    -- only the owner gives the semaphore up; another caller just signals
    if (σ.sem s).owner = some t then
      let σ := σ.setPriority t (σ.sem s).priority
      match σ.nextThread s with
      | some next => take (σ.setOwner s (some next)) s next
      | none => (σ.setOwner s none).savePriority s 0
    else σ
  SemaphoreTemplate.v σ s

namespace SemaphorePIP

/-- `priority( owner()->priority() )`. -/
def saveOwner (σ : Sync) (s : Sid) (own : Tid) : Sync :=
  σ.savePriority s (σ.priority own)

/-- The `else` branch of `Semaphore_PIP::p`: the owner inherits. -/
def inherit (σ : Sync) (_ : Sid) (own t : Tid) : Sync :=
  if σ.priority t < σ.priority own then σ.setPriority own (σ.priority t) else σ

def p (σ : Sync) (s : Sid) (t : Tid) : Sync × Bool := SemaphoreRT.p saveOwner inherit σ s t

def v (σ : Sync) (s : Sid) (t : Tid) : Sync × Option Tid := SemaphoreRT.v saveOwner σ s t

end SemaphorePIP

namespace SemaphoreIPCP

/-- `Semaphore_IPCP::toCeiling`, with `owner()` passed in. -/
def toCeiling (σ : Sync) (s : Sid) (own : Tid) : Sync :=
  let σ := σ.savePriority s (σ.priority own)
  σ.setPriority own (σ.ceiling s)

/-- `p()` has no branch for a semaphore that has an owner. -/
def p (σ : Sync) (s : Sid) (t : Tid) : Sync × Bool :=
  SemaphoreRT.p toCeiling (fun σ _ _ _ => σ) σ s t

def v (σ : Sync) (s : Sid) (t : Tid) : Sync × Option Tid := SemaphoreRT.v toCeiling σ s t

end SemaphoreIPCP

namespace SemaphorePCP

/-- `Semaphore_PCP::toCeiling`, with `owner()` passed in. -/
def toCeiling (σ : Sync) (s : Sid) (own : Tid) : Sync :=
  if σ.ceiling s < σ.priority own then σ.setPriority own (σ.ceiling s) else σ

def p (σ : Sync) (s : Sid) (t : Tid) : Sync × Bool :=
  SemaphoreRT.p SemaphorePIP.saveOwner (fun σ s own _ => toCeiling σ s own) σ s t

/-- The hand-off saves the new owner's priority; its `toCeiling()` is commented out. -/
def v (σ : Sync) (s : Sid) (t : Tid) : Sync × Option Tid :=
  SemaphoreRT.v SemaphorePIP.saveOwner σ s t

end SemaphorePCP

namespace SemaphoreMPCP

/-- The first loop of `divider`: the number of decimal digits and how many of
    them are not zero. `fuel` bounds the digits left. -/
def digits : (fuel num : Nat) → (count k : Int) → Int × Int
  | 0, _, count, k => (count, k)
  | fuel + 1, num, count, k =>
    if num = 0 then (count, k)
    else digits fuel (num / 10) (count + 1) (if num % 10 ≠ 0 then k + 1 else k)

/-- `Semaphore_MPCP::divider`. -/
def divider (numero : Int) : Int :=
  let (count, k) := digits numero.natAbs numero.natAbs 0 0
  (fun ans => toInt (ans * 10))^[(count - 3 + k).toNat] 1

/-- `Semaphore_MPCP::toGlobalCeiling`, where `p` is `priority()`. The subtraction
    is unsigned and its result becomes an `int` again. -/
def toGlobalCeiling (highestPriority p : Int) : Int :=
  toInt ((highestPriority - 1) - p.tdiv (divider p))

/-- `Semaphore_MPCP::toCeiling`, with `owner()` passed in. -/
def toCeiling (highestPriority : Int) (σ : Sync) (s : Sid) (own : Tid) : Sync :=
  let σ := σ.savePriority s (σ.priority own)
  σ.setPriority own (toGlobalCeiling highestPriority (σ.sem s).priority)

def p (highestPriority : Int) (σ : Sync) (s : Sid) (t : Tid) : Sync × Bool :=
  SemaphoreRT.p (toCeiling highestPriority) (fun σ _ _ _ => σ) σ s t

def v (highestPriority : Int) (σ : Sync) (s : Sid) (t : Tid) : Sync × Option Tid :=
  SemaphoreRT.v (toCeiling highestPriority) σ s t

end SemaphoreMPCP

/-! ## Dispatch on the class -/

/-- `p()` of the object `s`, called by `t`, up to its `sleep()`. SRP and MSRP only
    count here: what follows their `Base::p(true)` is `Kernel.updateCeiling`. -/
def Sync.p (σ : Sync) (s : Sid) (t : Tid) : Sync × Bool :=
  match (σ.sem s).protocol with
  | .pip => SemaphorePIP.p σ s t
  | .ipcp => SemaphoreIPCP.p σ s t
  | .pcp => SemaphorePCP.p σ s t
  | .mpcp highestPriority => SemaphoreMPCP.p highestPriority σ s t
  | .plain | .srp | .msrp => SemaphoreTemplate.p σ s t
  | .condition => (σ.enqueue s t, true)

/-- `v()` of the object `s`, called by `t`, up to its `wakeup()`. For a condition
    these are `wait()` and `signal()`. -/
def Sync.v (σ : Sync) (s : Sid) (t : Tid) : Sync × Option Tid :=
  match (σ.sem s).protocol with
  | .pip => SemaphorePIP.v σ s t
  | .ipcp => SemaphoreIPCP.v σ s t
  | .pcp => SemaphorePCP.v σ s t
  | .mpcp highestPriority => SemaphoreMPCP.v highestPriority σ s t
  | .plain | .srp | .msrp => SemaphoreTemplate.v σ s
  | .condition => σ.dequeue s

end Epos
