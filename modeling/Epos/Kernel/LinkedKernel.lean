import Epos.ForStd.RecursiveLock
import Epos.Kernel.LinkedList
import Epos.Kernel.Thread

/-!
# Threads on lists in memory

The operations of `thread.cc` again, this time on the lists as they are stored: the
`Scheduling_Multilist` of the scheduler and the waiting queues share the `_link`s of
the threads, and `_waiting`, `_waiting_fifo` and `_joining` are what the threads
remember. With one core this is also the plain `Scheduling_List`.

An operation is one step up to its context switch, with interrupts off and
`Thread::_lock` taken, as in `Epos.Kernel.Thread`; it is `none` where it dereferences
a null pointer. Electors, and ranks that are changed in place, are left to the
environment.
-/

namespace Epos

/-- The ready list of a core or a waiting queue. -/
inductive ListId where
  | ready (c : Nat)
  | queue (s : Sid)
  deriving DecidableEq, Repr

/-- The list objects and the `_link`s of the threads; `chosen c` is the `_chosen` of
    the scheduling list of the core `c`. -/
structure Lists where
  links : Links Tid
  header : ListId → ListHeader Tid
  chosen : Nat → Option Tid

namespace Lists

def list (m : Lists) (i : ListId) : LinkedList Tid where
  links := m.links
  header := m.header i

def sched (m : Lists) (c : Nat) : LinkedSchedulingList Tid where
  toLinkedList := m.list (.ready c)
  chosen := m.chosen c

def setList (m : Lists) (i : ListId) (q : LinkedList Tid) : Lists where
  links := q.links
  header := Function.update m.header i q.header
  chosen := m.chosen

def setSched (m : Lists) (c : Nat) (s : LinkedSchedulingList Tid) : Lists where
  links := s.links
  header := Function.update m.header (.ready c) s.header
  chosen := Function.update m.chosen c s.chosen

end Lists

/-- What `priority()` sets: the rank and the `queue()` of a criterion. -/
structure Criterion where
  priority : Int
  queue : Nat
  deriving DecidableEq, Repr

/-- The lists and what the threads store. `fifo s` says that the queue `s` is a
    `FIFO_Queue` and not a `Thread_Queue`; `priority` and `core` are the threads'
    criteria, of which `eligible` is asked. -/
structure LinkedKernel extends Lists where
  fifo : Sid → Bool
  state : Tid → Option State
  waiting : Tid → Option Sid
  waitingFifo : Tid → Option Sid
  joining : Tid → Option Tid
  priority : Tid → Int
  core : Tid → Nat
  eligible : Tid → Bool
  preemptive : Bool
  smp : Bool
  cores : Nat
  idle : Nat → Tid

namespace LinkedKernel

def setLists (k : LinkedKernel) (m : Lists) : LinkedKernel := { k with toLists := m }

def setState (k : LinkedKernel) (t : Tid) (st : State) : LinkedKernel :=
  { k with state := Function.update k.state t (some st) }

def setJoining (k : LinkedKernel) (t : Tid) (j : Option Tid) : LinkedKernel :=
  { k with joining := Function.update k.joining t j }

def setCriterion (k : LinkedKernel) (t : Tid) (crit : Criterion) : LinkedKernel :=
  { k with
    priority := Function.update k.priority t crit.priority
    core := Function.update k.core t crit.queue }

/-! ## The scheduler -/

def onSched (k : LinkedKernel) (c : Nat)
    (f : LinkedSchedulingList Tid → Option (LinkedSchedulingList Tid)) : Option LinkedKernel :=
  (f (k.sched c)).map fun s => k.setLists (k.setSched c s)

/-- `_scheduler.insert` and `_scheduler.resume`. -/
def insert (k : LinkedKernel) (t : Tid) : Option LinkedKernel :=
  k.onSched (k.core t) (·.insert k.priority t)

/-- `_scheduler.remove` and `_scheduler.suspend`. -/
def remove (k : LinkedKernel) (t : Tid) : Option LinkedKernel :=
  k.onSched (k.core t) (·.remove t)

def choose (k : LinkedKernel) (c : Nat) : Option LinkedKernel :=
  k.onSched c (·.choose k.priority k.eligible)

def chooseAnother (k : LinkedKernel) (c : Nat) : Option LinkedKernel :=
  k.onSched c (·.chooseAnother k.priority k.eligible Priority.idle)

/-- `_scheduler.choose(t)`, on the list that `t`'s criterion names. -/
def chooseElement (k : LinkedKernel) (t : Tid) : Option LinkedKernel :=
  k.onSched (k.core t) (·.chooseElement k.priority t)

/-- `dispatch(prev, next)` up to the context switch. -/
def dispatch (k : LinkedKernel) (prev next : Tid) : LinkedKernel :=
  if prev = next then k
  else
    let k := if k.state prev = some .running then k.setState prev .ready else k
    k.setState next .running

/-- `reschedule()` on the core `c`. -/
def reschedule (k : LinkedKernel) (c : Nat) : Option LinkedKernel := do
  let prev ← k.chosen c
  let k ← k.choose c
  let next ← k.chosen c
  some (k.dispatch prev next)

/-- `if(preemptive) reschedule(cpu)`, called on the core `c`. -/
def preempt (k : LinkedKernel) (c cpu : Nat) : Option LinkedKernel :=
  if k.preemptive ∧ (¬k.smp ∨ cpu = c) then k.reschedule c else some k

/-! ## Waiting queues -/

/-- `q->insert(&t->_link)`. -/
def enqueue (k : LinkedKernel) (s : Sid) (t : Tid) : Option LinkedKernel :=
  let q := k.list (.queue s)
  (if k.fifo s then q.insertTail t else q.orderedInsert k.priority t).map fun q =>
    k.setLists (k.setList (.queue s) q)

/-- `q->remove()`. -/
def dequeue (k : LinkedKernel) (s : Sid) : Option (Option Tid × LinkedKernel) :=
  (k.list (.queue s)).removeHead.map fun (x, q) =>
    (x, k.setLists (k.setList (.queue s) q))

/-- What `t` remembers of the queue `s` that it goes to sleep on. -/
def setWaiting (k : LinkedKernel) (t : Tid) (s : Sid) : LinkedKernel :=
  if k.fifo s then { k with waitingFifo := Function.update k.waitingFifo t (some s) }
  else { k with waiting := Function.update k.waiting t (some s) }

def clearWaiting (k : LinkedKernel) (t : Tid) (s : Sid) : LinkedKernel :=
  if k.fifo s then { k with waitingFifo := Function.update k.waitingFifo t none }
  else { k with waiting := Function.update k.waiting t none }

/-- One thread is taken off the queue and resumed. -/
def wake (k : LinkedKernel) (s : Sid) : Option (Tid × LinkedKernel) := do
  let (x, k) ← k.dequeue s
  let t ← x
  let k ← ((k.setState t .ready).clearWaiting t s).insert t
  some (t, k)

/-- The loop of `wakeup_all`, with the `cpus` of the threads that are resumed. -/
def wakeLoop (k : LinkedKernel) (s : Sid) (cpus : List Nat) :
    Nat → Option (List Nat × LinkedKernel)
  | 0 => if (k.list (.queue s)).empty then some (cpus, k) else none
  | n + 1 =>
    if (k.list (.queue s)).empty then some (cpus, k)
    else do
      let (t, k) ← k.wake s
      k.wakeLoop s (k.core t :: cpus) n

/-! ## Operations of threads

`c` is the core of the caller. -/

/-- The constructor's initializers. -/
def construct (k : LinkedKernel) (t : Tid) (st : State) (crit : Criterion) : LinkedKernel :=
  { k with
    links := (k.links.setPrev t none).setNext t none
    state := Function.update k.state t (some st)
    waiting := Function.update k.waiting t none
    waitingFifo := Function.update k.waitingFifo t none
    joining := Function.update k.joining t none
    priority := Function.update k.priority t crit.priority
    core := Function.update k.core t crit.queue }

def create (k : LinkedKernel) (c : Nat) (t : Tid) (st : State) (crit : Criterion) :
    Option LinkedKernel := do
  let k ← (k.construct t st crit).insert t
  let k ← if st ≠ .ready ∧ st ≠ .running then k.remove t else some k
  if st = .ready ∧ k.priority t ≠ Priority.idle then k.preempt c (k.core t) else some k

def yield (k : LinkedKernel) (c : Nat) : Option LinkedKernel := do
  let prev ← k.chosen c
  let k ← k.chooseAnother c
  let next ← k.chosen c
  some (k.dispatch prev next)

def sleep (k : LinkedKernel) (c : Nat) (s : Sid) : Option LinkedKernel := do
  let prev ← k.chosen c
  let k ← k.remove prev
  -- The `_link` is free to go from the ready list to the waiting queue.
  let k ← ((k.setState prev .waiting).setWaiting prev s).enqueue s prev
  let next ← k.chosen c
  some (k.dispatch prev next)

def wakeup (k : LinkedKernel) (c : Nat) (s : Sid) : Option LinkedKernel :=
  if (k.list (.queue s)).empty then some k
  else do
    let (t, k) ← k.wake s
    k.preempt c (k.core t)

/-- The core of the caller reschedules at most once; further calls of `reschedule()`, and
    the interrupted cores of other threads, are steps of their own. -/
def wakeupAll (k : LinkedKernel) (c : Nat) (s : Sid) : Option LinkedKernel := do
  let (cpus, k) ← k.wakeLoop s [] (k.header (.queue s)).size.toNat
  if k.preemptive ∧ ∃ cpu ∈ cpus, ¬k.smp ∨ cpu = c then k.reschedule c else some k

/-- `u.suspend()`. -/
def suspend (k : LinkedKernel) (c : Nat) (u : Tid) : Option LinkedKernel := do
  let prev ← k.chosen c
  let k ← (k.setState u .suspended).remove u
  let next ← k.chosen c
  some (k.dispatch prev next)

/-- `u.join()`. -/
def join (k : LinkedKernel) (c : Nat) (u : Tid) : Option LinkedKernel :=
  if k.state u = some .finishing then some k
  else do
    let prev ← k.chosen c
    (k.setJoining u (some prev)).suspend c prev

def resume (k : LinkedKernel) (c : Nat) (u : Tid) : Option LinkedKernel :=
  if k.state u = some .suspended then do
    let k ← (k.setState u .ready).insert u
    k.preempt c (k.core u)
  else some k

/-- `exit()` resumes the thread that joined `t`. -/
def resumeJoiner (k : LinkedKernel) (t : Tid) : Option LinkedKernel :=
  match k.joining t with
  | none => some k
  | some j => do
    let k ← (k.setState j .ready).insert j
    some (k.setJoining t none)

def exit (k : LinkedKernel) (c : Nat) : Option LinkedKernel := do
  let prev ← k.chosen c
  let k ← k.remove prev
  let k ← (k.setState prev .finishing).resumeJoiner prev
  let k ← k.choose c
  let next ← k.chosen c
  some (k.dispatch prev next)

/-- `t.pass()`, with the thread that the core is switched to. `_scheduler.choose(t)`
    returns `t` unless the list has nothing chosen. -/
def pass (k : LinkedKernel) (c : Nat) (t : Tid) : Option (LinkedKernel × Option Tid) := do
  let prev ← k.chosen c
  let k ← k.chooseElement t
  match k.chosen (k.core t) with
  -- `prev` is of the core `c`, which need not be the one that `t` is listed on.
  | some _ => some (k.dispatch prev t, if prev = t then none else some t)
  | none => some (k, none)

/-! ## Changing a priority

Here the level of `_lock` matters: `switchedAt` is how often it is held when
`dispatch()` switches the context. -/

structure Released where
  kernel : LinkedKernel
  lock : RecursiveLock Tid
  switchedAt : Option Nat

/-- `lock()`, called by the thread `self`. -/
def lock (k : LinkedKernel) (l : RecursiveLock Tid) (self : Tid) : RecursiveLock Tid :=
  if k.smp then l.acquire self else l

def unlock (k : LinkedKernel) (l : RecursiveLock Tid) : RecursiveLock Tid :=
  if k.smp then l.release else l

/-- `reschedule(cpu)`, called on the core `c`. The release is the one in `dispatch()`, or
    the one after the interrupt for the other core. -/
def rescheduleOn (k : LinkedKernel) (l : RecursiveLock Tid) (c cpu : Nat) : Option Released :=
  if ¬k.smp ∨ cpu = c then do
    let prev ← k.chosen c
    let k ← k.reschedule c
    let next ← k.chosen c
    some ⟨k, k.unlock l, if prev = next then none else some l.level⟩
  else some ⟨k, k.unlock l, none⟩

/-- The lists are only touched if `t` is not running; in which of them it is, if in any,
    is not asked. -/
def reorder (k : LinkedKernel) (t : Tid) (crit : Criterion) : Option LinkedKernel :=
  if k.state t ≠ some .running then do
    let k ← k.remove t
    (k.setCriterion t crit).insert t
  else some (k.setCriterion t crit)

/-- `t.priority(crit)`. After a switch the last `unlock()` waits for the caller to run
    again. -/
def priorityTo (k : LinkedKernel) (c : Nat) (t : Tid) (crit : Criterion) : Option Released := do
  let self ← k.chosen c
  let k ← k.reorder t crit
  let l := k.lock {} self
  -- `lock()` is called a second time before `reschedule(new_cpu)`.
  if k.preemptive ∧ k.smp then
    let r ← k.rescheduleOn (k.lock l self) c (k.core t)
    some (if r.switchedAt.isSome then r else { r with lock := k.unlock r.lock })
  else some ⟨k, k.unlock l, none⟩

/-- `criterion().setPriority(prio)`: the rank changes in place. -/
def setRank (k : LinkedKernel) (u : Tid) (prio : Int) : LinkedKernel :=
  { k with priority := Function.update k.priority u prio }

/-- The electors answer differently, as the threads' criteria have changed. -/
def elect (k : LinkedKernel) (eligible : Tid → Bool) : LinkedKernel :=
  { k with eligible := eligible }

end LinkedKernel

/-! ## Runs -/

inductive LinkedAction where
  | create (c : Nat) (t : Tid) (st : State) (crit : Criterion)
  | yield (c : Nat)
  | sleep (c : Nat) (s : Sid)
  | wakeup (c : Nat) (s : Sid)
  | wakeupAll (c : Nat) (s : Sid)
  | join (c : Nat) (u : Tid)
  | exit (c : Nat)
  | suspend (c : Nat) (u : Tid)
  | resume (c : Nat) (u : Tid)
  | pass (c : Nat) (t : Tid)
  | reschedule (c : Nat)
  | setRank (u : Tid) (prio : Int)
  | elect (eligible : Tid → Bool)

namespace LinkedKernel

def step (k : LinkedKernel) : LinkedAction → Option LinkedKernel
  | .create c t st crit => k.create c t st crit
  | .yield c => k.yield c
  | .sleep c s => k.sleep c s
  | .wakeup c s => k.wakeup c s
  | .wakeupAll c s => k.wakeupAll c s
  | .join c u => k.join c u
  | .exit c => k.exit c
  | .suspend c u => k.suspend c u
  | .resume c u => k.resume c u
  | .pass c t => (k.pass c t).map Prod.fst
  | .reschedule c => k.reschedule c
  | .setRank u prio => some (k.setRank u prio)
  | .elect eligible => some (k.elect eligible)

/-- The core `c` runs a thread that may give it up. -/
def Runs (k : LinkedKernel) (c : Nat) : Prop :=
  c < k.cores ∧ k.chosen c ≠ some (k.idle c)

/-- What the kernel relies on: the idle threads keep to their cores, new threads are
    ready or suspended, and `join()` meets the assertions in it. A thread that joins
    another is resumed by nobody else. -/
def CanAct (k : LinkedKernel) : LinkedAction → Prop
  | .create c t st crit =>
    c < k.cores ∧ k.state t = none ∧ crit.queue < k.cores ∧ (st = .ready ∨ st = .suspended)
  | .yield c | .reschedule c | .wakeup c _ | .wakeupAll c _ => c < k.cores
  | .sleep c _ | .exit c => k.Runs c
  | .join c u => k.Runs c ∧ k.chosen c ≠ some u ∧ k.joining u = none ∧ k.state u ≠ none
  | .suspend c u => c < k.cores ∧ k.state u ≠ none
  | .resume c u => c < k.cores ∧ ∀ v, k.joining v ≠ some u
  | .pass c t => c < k.cores ∧ k.state t ≠ none
  | .setRank _ _ | .elect _ => True

end LinkedKernel

end Epos
