import Epos.ForStd.TransitionSystem
import Epos.Kernel.Synchronizer

/-!
# Counting semaphores

`Semaphore` and `Semaphore_Template` with the 32 bits of their `_value`, and the
destructor of a thread that waits on one. A `p()` is complete when its caller need
not wait any more: at once, or when a `v()` takes it off the queue.
-/

namespace Epos

/-- The largest `int`. -/
def intMax : Int := 2147483647

/-- The smallest `int`. -/
def intMin : Int := -2147483648

/-- One semaphore is looked at. `initial` is the value it was created with, `started`
    the number of `p()` calls that are complete or whose caller is alive, `completed`
    the number of complete ones, and `released` the number of `v()` calls. -/
structure Counting where
  sync : Sync
  initial : Int
  started : Nat := 0
  completed : Nat := 0
  released : Nat := 0

inductive CountingAction where
  | p (t : Tid)
  | v
  | delete (t : Tid)
  deriving DecidableEq, Repr

namespace Counting

/-- What `fdec` and `finc` store is an `int`. -/
def wrap (σ : Sync) (s : Sid) : Sync :=
  σ.modify s fun m => { m with value := toInt m.value }

/-- `p()`, called by `t`. -/
def p (c : Counting) (s : Sid) (t : Tid) : Counting :=
  let (σ, sleeps) := SemaphoreTemplate.p c.sync s t
  { c with
    sync := wrap σ s
    started := c.started + 1
    completed := if sleeps then c.completed else c.completed + 1 }

/-- `v()`, called by anyone. -/
def v (c : Counting) (s : Sid) : Counting :=
  let (σ, woken) := SemaphoreTemplate.v c.sync s
  { c with
    sync := wrap σ s
    completed := if woken.isSome then c.completed + 1 else c.completed
    released := c.released + 1 }

/-- `Thread::~Thread` of a thread that waits: `_waiting->remove(this)`. -/
def delete (c : Counting) (s : Sid) (t : Tid) : Counting :=
  { c with
    sync := c.sync.modify s fun m => { m with queue := m.queue.erase t }
    started := c.started - 1 }

def step (c : Counting) (s : Sid) : CountingAction → Counting
  | .p t => c.p s t
  | .v => c.v s
  | .delete t => c.delete s t

/-- A thread that waits does not call anything. -/
def CanAct (c : Counting) (s : Sid) : CountingAction → Prop
  | .p t => t ∉ (c.sync.sem s).queue
  | .v => True
  | .delete t => t ∈ (c.sync.sem s).queue

instance (c : Counting) (s : Sid) (a : CountingAction) : Decidable (c.CanAct s a) :=
  match a with
  | .p t => inferInstanceAs (Decidable (t ∉ (c.sync.sem s).queue))
  | .v => isTrue trivial
  | .delete t => inferInstanceAs (Decidable (t ∈ (c.sync.sem s).queue))

/-- The semaphore `s` as it is created, with a value that is not negative. -/
structure Created (c : Counting) (s : Sid) : Prop where
  queue : (c.sync.sem s).queue = []
  value : (c.sync.sem s).value = c.initial
  nonneg : 0 ≤ c.initial
  le_max : c.initial ≤ intMax
  started : c.started = 0
  completed : c.completed = 0
  released : c.released = 0

/-- `p()` and `v()` by any threads, and deletions of waiting ones, in any order. -/
def system (s : Sid) : TransitionSystem Counting CountingAction where
  Init c := c.Created s
  Enabled c a := c.CanAct s a
  next c a := c.step s a

instance (s : Sid) (c : Counting) (a : CountingAction) : Decidable ((system s).Enabled c a) :=
  inferInstanceAs (Decidable (c.CanAct s a))

end Counting

end Epos
