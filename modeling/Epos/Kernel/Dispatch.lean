import Epos.ForStd.RecursiveLock
import Epos.ForStd.TransitionSystem
import Epos.Kernel.SchedulingList
import Epos.Kernel.Thread

/-!
# `dispatch()` in steps

`Thread::reschedule` on several CPUs, cut where `dispatch()` lets other CPUs in: it
updates the states, releases `_lock`, saves the context of `prev` and loads the one of
`next`. The CPUs share scheduling lists as their criterion says. Interrupts are off from
`lock()` to the load, so that a CPU is in one `reschedule()` at a time.
-/

namespace Epos

/-! ## Scheduling lists with several heads -/

/-- `Multihead_Scheduling_List`, with `Scheduling_List` as the one that has one head. -/
structure MultiheadList where
  chosen : Nat → Option Tid
  list : List Tid

namespace MultiheadList

/-- What the operations see when `h` is the current head. -/
def current (q : MultiheadList) (h : Nat) : SchedulingList := { chosen := q.chosen h, list := q.list }

/-- `choose()` with the current head `h`. -/
def choose (rank : Tid → Int) (eligible : Tid → Bool) (q : MultiheadList) (h : Nat) :
    MultiheadList :=
  let l := (q.current h).choose rank eligible
  { chosen := Function.update q.chosen h l.chosen, list := l.list }

end MultiheadList

/-! ## Criteria for several CPUs -/

inductive MulticoreCriterion where
  | grr
  | cpuAffinity
  | prm
  | gedf
  | pedf
  | cedf
  deriving DecidableEq, Repr

namespace MulticoreCriterion

/-- `CEDF::HEADS`. -/
def heads : Nat := 2

/-- The scheduling queue is a `Scheduling_Multilist` with a list for each CPU. -/
def partitioned : MulticoreCriterion → Bool
  | .cpuAffinity | .prm | .pedf => true
  | .grr | .gedf | .cedf => false

/-- `current_queue()` on a CPU. -/
def currentQueue (k : MulticoreCriterion) (cpu : Nat) : Nat :=
  match k with
  | .cpuAffinity | .prm | .pedf => cpu
  | .cedf => cpu / heads
  | .grr | .gedf => 0

/-- `current_head()` on a CPU. -/
def currentHead (k : MulticoreCriterion) (cpu : Nat) : Nat :=
  match k with
  | .grr | .gedf => cpu
  | .cedf => cpu % heads
  | .cpuAffinity | .prm | .pedf => 0

end MulticoreCriterion

/-! ## Steps -/

/-- Where a CPU is in `reschedule()`. -/
inductive SwitchPoint where
  /-- In the code of its thread, with interrupts enabled. -/
  | thread
  /-- `lock()` is over. -/
  | locked
  /-- `prev` and `next` are the same thread. -/
  | same
  /-- Their states have been updated. -/
  | updated (prev next : Tid)
  /-- `_lock` has been released. -/
  | released (prev next : Tid)
  /-- The context of `prev` has been saved. -/
  | saved (next : Tid)
  deriving DecidableEq, Repr

/-- `executes c` is the thread whose context the CPU `c` has in its registers, and
    `saved t` whether what stands in memory is all there is of the context of `t`. -/
structure Dispatching where
  criterion : MulticoreCriterion
  cpus : Nat
  lists : Nat → MultiheadList
  state : Tid → State
  lock : RecursiveLock Tid := {}
  point : Nat → SwitchPoint := fun _ => .thread
  executes : Nat → Option Tid
  saved : Tid → Bool

/-- A step of `reschedule()` on the CPU `c`. The ranks and the answers of the elector are
    those of the moment at which a thread is chosen. -/
inductive SwitchAction where
  | lock (c : Nat)
  | choose (c : Nat) (rank : Tid → Int) (eligible : Tid → Bool)
  | release (c : Nat)
  | save (c : Nat)
  | load (c : Nat)

namespace Dispatching

variable (s : Dispatching)

/-- The list in which the CPU `c` chooses. -/
def list (c : Nat) : MultiheadList := s.lists (s.criterion.currentQueue c)

/-- `Thread::running()` on the CPU `c`. -/
def running (c : Nat) : Option Tid := (s.list c).chosen (s.criterion.currentHead c)

/-- `_scheduler.choose()`; only `Scheduling_List` asks for the eligibility of its head. -/
def choose (c : Nat) (rank : Tid → Int) (eligible : Tid → Bool) : Dispatching :=
  let elects := if s.criterion.partitioned then eligible else fun _ => true
  { s with
    lists := Function.update s.lists (s.criterion.currentQueue c)
      ((s.list c).choose rank elects (s.criterion.currentHead c)) }

/-- `dispatch(prev, next)` up to the release. -/
def dispatch (c : Nat) (prev next : Tid) : Dispatching :=
  if prev = next then { s with point := Function.update s.point c .same }
  else
    -- A `prev` that waits, is suspended or finishes keeps that state.
    let state :=
      if s.state prev = .running then Function.update s.state prev .ready else s.state
    { s with
      state := Function.update state next .running
      point := Function.update s.point c (.updated prev next) }

def step : SwitchAction → Dispatching
  | .lock c =>
    match s.running c with
    | some self =>
      { s with lock := s.lock.acquire self, point := Function.update s.point c .locked }
    | none => s
  | .choose c rank eligible =>
    let s' := s.choose c rank eligible
    match s.running c, s'.running c with
    | some prev, some next => s'.dispatch c prev next
    | _, _ => s'
  | .release c =>
    match s.point c with
    | .updated prev next =>
      { s with
        lock := s.lock.release
        point := Function.update s.point c (.released prev next) }
    | _ => { s with lock := s.lock.release, point := Function.update s.point c .thread }
  -- `switch_context` comes behind the release, when another CPU may have chosen `prev` already.
  | .save c =>
    match s.point c with
    | .released prev next =>
      { s with
        executes := Function.update s.executes c none
        saved := Function.update s.saved prev true
        point := Function.update s.point c (.saved next) }
    | _ => s
  | .load c =>
    match s.point c with
    | .saved next =>
      { s with
        executes := Function.update s.executes c (some next)
        saved := Function.update s.saved next false
        point := Function.update s.point c .thread }
    | _ => s

/-- Each CPU goes through `reschedule()` step by step, and waits for `_lock`. -/
def CanAct : SwitchAction → Prop
  | .lock c =>
    c < s.cpus ∧ s.point c = .thread ∧ ∀ self ∈ s.running c, s.lock.CanAcquire self
  | .choose c _ _ => c < s.cpus ∧ s.point c = .locked
  | .release c => c < s.cpus ∧ (s.point c = .same ∨ ∃ prev next, s.point c = .updated prev next)
  | .save c => c < s.cpus ∧ ∃ prev next, s.point c = .released prev next
  | .load c => c < s.cpus ∧ ∃ next, s.point c = .saved next

/-! ## The system -/

/-- Where the scheduler has a thread. -/
inductive Place where
  | queue (q : Nat)
  | head (c : Nat)
  | away
  deriving DecidableEq

/-- The lists and the heads have each thread where it is and nowhere else. -/
structure Located (place : Tid → Place) : Prop where
  listed : ∀ q t, t ∈ (s.lists q).list ↔ place t = .queue q
  nodup : ∀ q, (s.lists q).list.Nodup
  headed : ∀ c < s.cpus, ∀ t, s.running c = some t ↔ place t = .head c
  occupied : ∀ c < s.cpus, (s.running c).isSome

/-- Every CPU executes its chosen thread, and the others have been saved. -/
structure Settled : Prop where
  located : ∃ place, s.Located place
  lock : s.lock = {}
  point : ∀ c < s.cpus, s.point c = .thread
  executes : ∀ c < s.cpus, s.executes c = s.running c
  saved : ∀ t, s.saved t = false ↔ ∃ c < s.cpus, s.executes c = some t

end Dispatching

/-- Reschedules on the CPUs, from a state in which none is under way. -/
def dispatching : TransitionSystem Dispatching SwitchAction where
  Init s := s.Settled
  Enabled s a := s.CanAct a
  next s a := s.step a

end Epos
