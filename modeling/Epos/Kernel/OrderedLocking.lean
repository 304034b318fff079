import Epos.ForStd.TransitionSystem
import Epos.Kernel.Synchronizer

/-!
# Threads that acquire semaphores in order

Finitely many threads that repeatedly acquire some semaphores with `p()`, each after the
ones that it has in a fixed order of all semaphores, and then release all of them with
`v()`. Every thread that does not wait may act next. A `_value` is never below minus the
number of threads, of which fewer fit into memory than an `int` counts.
-/

namespace Epos

/-- Where a thread is in its program. -/
inductive LockingPhase where
  | acquiring
  | releasing
  | finished
  deriving DecidableEq, Repr

/-- `held t` are the semaphores whose `p()` the thread has passed and not left with `v()`. -/
structure OrderedLocking where
  sync : Sync
  threads : List Tid
  held : Tid → List Sid := fun _ => []
  phase : Tid → LockingPhase := fun _ => .acquiring

inductive LockingAction where
  | p (t : Tid) (s : Sid)
  | v (t : Tid) (s : Sid)
  | finish (t : Tid)
  deriving DecidableEq, Repr

namespace OrderedLocking

variable (r : OrderedLocking)

/-- `t` sleeps in `s->p()`. -/
def WaitsAt (t : Tid) (s : Sid) : Prop := t ∈ (r.sync.sem s).queue

instance (t : Tid) (s : Sid) : Decidable (r.WaitsAt t s) :=
  inferInstanceAs (Decidable (t ∈ (r.sync.sem s).queue))

def Waiting (t : Tid) : Prop := ∃ s, r.WaitsAt t s

def acquire (t : Tid) (s : Sid) : OrderedLocking :=
  { r with held := Function.update r.held t (r.held t ++ [s]) }

/-- A thread that has released everything may begin again. -/
def release (t : Tid) (s : Sid) : OrderedLocking :=
  let rest := (r.held t).erase s
  { r with
    held := Function.update r.held t rest
    phase := Function.update r.phase t (if rest = [] then .acquiring else .releasing) }

/-- `s->p()`, called by `t`. -/
def p (t : Tid) (s : Sid) : OrderedLocking :=
  let (σ, sleeps) := SemaphoreTemplate.p r.sync s t
  let r := { r with sync := σ }
  if sleeps then r else r.acquire t s

/-- `s->v()`, called by `t`. The thread that `wakeup()` takes off the queue has passed its
    `p()`: it does not look at the counter again. -/
def v (t : Tid) (s : Sid) : OrderedLocking :=
  let (σ, woken) := SemaphoreTemplate.v r.sync s
  let r := { r with sync := σ }.release t s
  woken.elim r fun u => r.acquire u s

def step : LockingAction → OrderedLocking
  | .p t s => r.p t s
  | .v t s => r.v t s
  | .finish t => { r with phase := Function.update r.phase t .finished }

/-- What the program of the thread that acts promises. -/
def CanAct (before : Sid → Sid → Prop) : LockingAction → Prop
  | .p t s => t ∈ r.threads ∧ ¬ r.Waiting t ∧ r.phase t = .acquiring ∧
      ∀ x ∈ r.held t, before x s
  | .v t s => t ∈ r.threads ∧ ¬ r.Waiting t ∧ s ∈ r.held t
  | .finish t => t ∈ r.threads ∧ ¬ r.Waiting t ∧ r.held t = []

/-- New semaphores of value 1, and threads that have done nothing. -/
structure Created : Prop where
  value : ∀ s, (r.sync.sem s).value = 1
  queue : ∀ s, (r.sync.sem s).queue = []
  held : ∀ t, r.held t = []
  phase : ∀ t, r.phase t = .acquiring

/-- Any interleaving of the threads, with the order in which they acquire semaphores. -/
def system (before : Sid → Sid → Prop) : TransitionSystem OrderedLocking LockingAction where
  Init r := r.Created
  Enabled r a := r.CanAct before a
  next r a := r.step a

end OrderedLocking

end Epos
