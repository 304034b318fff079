import Epos.ForStd.TransitionSystem
import Epos.Kernel.Synchronizer

/-!
# The mutex

`Mutex` of `mutex.cc` with the ordered queue of `Thread::sleep` and
`Thread::wakeup`. The threads around it are given by what they have done: who is
between a completed `lock()` and its `unlock()`, and whom a `wakeup()` has handed the
mutex without having run since.
-/

namespace Epos

structure Mutex where
  locked : Bool := false
  queue : List Tid := []
  deriving DecidableEq, Repr

namespace Mutex

/-- `Mutex::lock`, called by `t`. The flag tells whether the caller sleeps. -/
def lock (m : Mutex) (priority : Tid → Int) (t : Tid) : Mutex × Bool :=
  -- `tsl` returns the old value
  let old := m.locked
  let m := { m with locked := true }
  if old then ({ m with queue := m.queue.insertRank priority t }, true) else (m, false)

/-- `Mutex::unlock`, with the thread that `wakeup()` takes off the queue. -/
def unlock (m : Mutex) : Mutex × Option Tid :=
  match m.queue with
  | [] => ({ m with locked := false }, none)
  | t :: rest => ({ m with queue := rest }, some t)

end Mutex

/-- A mutex and the threads that use it. `holders` are inside, `handed` have been
    woken up and not returned from their `lock()`, and `arrival` tells when a thread
    last joined the queue, in steps. -/
structure MutexRun where
  mutex : Mutex := {}
  priority : Tid → Int
  holders : List Tid := []
  handed : List Tid := []
  arrival : Tid → Nat := fun _ => 0
  time : Nat := 0

/-- `ret t` is the rest of the `lock()` of a thread that was woken up. -/
inductive MutexAction where
  | lock (t : Tid)
  | unlock (t : Tid)
  | ret (t : Tid)
  | setPriority (t : Tid) (p : Int)
  deriving DecidableEq, Repr

namespace MutexRun

def lock (r : MutexRun) (t : Tid) : MutexRun :=
  match r.mutex.lock r.priority t with
  | (m, true) =>
    { r with
      mutex := m
      arrival := Function.update r.arrival t r.time
      time := r.time + 1 }
  | (m, false) => { r with mutex := m, holders := t :: r.holders }

def unlock (r : MutexRun) (t : Tid) : MutexRun :=
  { r with
    mutex := r.mutex.unlock.1
    holders := r.holders.erase t
    handed := r.mutex.unlock.2.toList ++ r.handed }

def ret (r : MutexRun) (t : Tid) : MutexRun :=
  { r with holders := t :: r.holders, handed := r.handed.erase t }

def step (r : MutexRun) : MutexAction → MutexRun
  | .lock t => r.lock t
  | .unlock t => r.unlock t
  | .ret t => r.ret t
  | .setPriority t p => { r with priority := Function.update r.priority t p }

/-- `t` is neither asleep on the mutex nor still inside the `wakeup()` of another. -/
def Awake (r : MutexRun) (t : Tid) : Prop := t ∉ r.mutex.queue ∧ t ∉ r.handed

/-- Any thread may call `lock()`, the holder `unlock()`; priorities do not change
    while queued. -/
def CanAct (r : MutexRun) : MutexAction → Prop
  | .lock t => r.Awake t
  | .unlock t => r.Awake t ∧ t ∈ r.holders
  | .ret t => t ∈ r.handed
  | .setPriority t _ => t ∉ r.mutex.queue

instance (r : MutexRun) (t : Tid) : Decidable (r.Awake t) :=
  inferInstanceAs (Decidable (_ ∧ _))

instance (r : MutexRun) (a : MutexAction) : Decidable (r.CanAct a) :=
  match a with
  | .lock t => inferInstanceAs (Decidable (r.Awake t))
  | .unlock t => inferInstanceAs (Decidable (r.Awake t ∧ t ∈ r.holders))
  | .ret t => inferInstanceAs (Decidable (t ∈ r.handed))
  | .setPriority t _ => inferInstanceAs (Decidable (t ∉ r.mutex.queue))

/-- Any number of threads and any interleaving, from an unlocked mutex. -/
def system : TransitionSystem MutexRun MutexAction where
  Init r := r.mutex = {} ∧ r.holders = [] ∧ r.handed = []
  Enabled := CanAct
  next := step

instance (r : MutexRun) (a : MutexAction) : Decidable (system.Enabled r a) :=
  inferInstanceAs (Decidable (r.CanAct a))

end MutexRun

end Epos
