import Epos.ForStd.TransitionSystem
import Epos.Kernel.Alarm
import Epos.Kernel.Synchronizer

/-!
# The criterion `EDF` over time

Periodic threads get their priorities from `Alarm::elapsed()`, an `int` that the timer
interrupt increments. Next to it stands the number of ticks that it counts, and the jobs
are logged with the absolute deadlines that they have in it.
-/

namespace Epos

/-- What `EDF` reads and writes. Both are in ticks. -/
structure Edf where
  priority : Int
  deadline : Int
  deriving DecidableEq, Repr

namespace Edf

/-- `EDF(d, p, c)`. -/
def construct (w timerPeriod d : Nat) : Edf where
  priority := ticks w timerPeriod d
  deadline := ticks w timerPeriod d

def update (e : Edf) (elapsed : Int) : Edf :=
  if Priority.high < e.priority ∧ e.priority < Priority.normal then
    { e with priority := toInt (elapsed + e.deadline) }
  else e

end Edf

/-- An absolute deadline, the priority that the job has been released with, and whether
    `update()` has assigned it. -/
structure EdfJob where
  deadline : Int
  priority : Int
  updated : Bool
  deriving DecidableEq, Repr

structure EdfRun (τ : Type*) where
  time : Int
  elapsed : Int
  criterion : τ → Option Edf
  jobs : List EdfJob := []

inductive EdfAction (τ : Type*) where
  /-- `_elapsed++`, in the handler of the timer interrupt. -/
  | tick
  /-- A thread with the relative deadline `d`. Without an activation time its first job is
      released by `resume()`, and with one its priority is set to `PERIODIC`. -/
  | create (t : τ) (d : Nat) (activation : Bool)
  /-- The alarm of `t` releases a job, which calls `update()`. -/
  | release (t : τ)
  deriving DecidableEq, Repr

namespace EdfRun

variable {τ : Type*} [DecidableEq τ] (w timerPeriod : Nat) (s : EdfRun τ)

def create (t : τ) (d : Nat) (activation : Bool) : EdfRun τ :=
  let e := Edf.construct w timerPeriod d
  if activation then
    { s with
      criterion := Function.update s.criterion t (some { e with priority := Priority.high }) }
  else
    { s with
      criterion := Function.update s.criterion t (some e)
      jobs := ⟨s.time + e.deadline, e.priority, false⟩ :: s.jobs }

def release (t : τ) : EdfRun τ :=
  match s.criterion t with
  | some e =>
    let e := e.update s.elapsed
    { s with
      criterion := Function.update s.criterion t (some e)
      jobs := ⟨s.time + e.deadline, e.priority, true⟩ :: s.jobs }
  | none => s

def step : EdfAction τ → EdfRun τ
  | .tick => { s with time := s.time + 1, elapsed := toInt (s.elapsed + 1) }
  | .create t d activation => s.create w timerPeriod t d activation
  | .release t => s.release t

/-- A thread is created once, with a deadline of positive tick length. -/
def CanAct : EdfAction τ → Prop
  | .tick => True
  | .create t d _ => s.criterion t = none ∧ 0 < ticks w timerPeriod d
  | .release t => (s.criterion t).isSome

end EdfRun

/-- No threads yet, after any number of ticks. -/
def edfThreads (τ : Type*) [DecidableEq τ] (w timerPeriod : Nat) :
    TransitionSystem (EdfRun τ) (EdfAction τ) where
  Init s := s.elapsed = toInt s.time ∧ (∀ t, s.criterion t = none) ∧ s.jobs = []
  Enabled s a := s.CanAct w timerPeriod a
  next s a := s.step w timerPeriod a

end Epos
