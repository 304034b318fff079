import Epos.ForStd.RecursiveLock
import Epos.ForStd.TransitionSystem
import Epos.Kernel.Alarm
import Mathlib.Data.Fintype.Basic

/-!
# Alarms on several CPUs

The operations of `api/alarm.cc` cut where interrupts are switched, where
`Thread::_lock` is acquired, released or tested and between the writes to the queue.
Every thread carries the instructions that it still has to execute, and a step is one
instruction of the thread that a CPU runs. A timer interrupt runs `Alarm::handler` in
the context of the interrupted thread, which is the one that its lock belongs to.
-/

namespace Epos

/-- What is done to `_request` or to the alarm that is in or out of it. -/
inductive AlarmWrite (α : Type*) where
  | remove (a : α)
  | setRank (a : α)
  | setTicks (a : α) (p : Nat)
  | insert (a : α)
  /-- `Alarm::handler` between `lock()` and `unlock()`. -/
  | tick
  deriving DecidableEq, Repr

inductive AlarmInstr (α : Type*) where
  | intDisable
  | intEnable
  | acquire
  | release
  | write (w : AlarmWrite α)
  /-- `bool locked = Thread::locked(); if(!locked) lock();`, what `reset()` and `period()` do
      then, and `if(!locked) unlock();`. -/
  | unlessLocked (body : List (AlarmWrite α))
  /-- The fields of a new alarm, before the constructor locks. -/
  | create (a : α) (alarm : Alarm)
  | fire (a : α)
  | delete (a : α)
  /-- What other users of the lock do with it. -/
  | work
  deriving DecidableEq, Repr

/-- The calls that use the lock. -/
inductive AlarmCall (α : Type*) where
  | construct (a : α) (time times : Nat)
  | destroy (a : α)
  | reset (a : α)
  | period (a : α) (p : Nat)
  | handler
  /-- A critical section of another user. -/
  | critical
  deriving DecidableEq, Repr

/-- Whether `_request` itself is written. -/
def AlarmWrite.toQueue {α : Type*} : AlarmWrite α → Bool
  | .remove _ | .insert _ | .tick => true
  | .setRank _ | .setTicks _ _ => false

namespace AlarmInstr

variable {α : Type*}

def writesQueue : AlarmInstr α → Bool
  | .write w => w.toQueue
  | _ => false

def testsLock : AlarmInstr α → Bool
  | .unlessLocked _ => true
  | _ => false

/-- `Alarm::lock` and `Thread::lock`. -/
def lock : List (AlarmInstr α) := [.intDisable, .acquire]

/-- `Alarm::unlock` and `Thread::unlock`. -/
def unlock : List (AlarmInstr α) := [.release, .intEnable]

end AlarmInstr

open AlarmInstr in
def AlarmCall.code {α : Type*} (ticks : Nat → Int) : AlarmCall α → List (AlarmInstr α)
  | .construct a time times =>
    let alarm := { time, times := times % 2 ^ 32, ticks := ticks time }
    -- an alarm without ticks is not put into the list: its handler runs at once
    .create a alarm :: lock ++
      if ticks time ≠ 0 then .write (.insert a) :: unlock else unlock ++ [.fire a]
  | .destroy a => lock ++ .write (.remove a) :: unlock ++ [.delete a]
  -- with the lock held already it is neither taken nor released
  | .reset a => [.unlessLocked [.remove a, .setRank a, .insert a]]
  | .period a p => [.unlessLocked [.remove a, .setTicks a p, .insert a]]
  | .handler => lock ++ .write .tick :: unlock
  | .critical => lock ++ .work :: unlock

def AlarmWrite.apply {α : Type*} [DecidableEq α] (ticks : Nat → Int) (σ : Alarms α) :
    AlarmWrite α → Alarms α
  | .remove a => σ.remove a
  | .setRank a => ((σ.alarm a).map fun alarm => σ.setRank a alarm.ticks).getD σ
  | .setTicks a p =>
    σ.setAlarm a ((σ.alarm a).map fun alarm => { alarm with time := p, ticks := ticks p })
  | .insert a => ((σ.alarm a).map fun alarm => σ.insert a alarm.ticks).getD σ
  | .tick => σ.handler

/-- The CPUs `κ`, the threads `ι` and the alarms `α`. -/
structure AlarmCpus (κ ι α : Type*) where
  running : κ → ι
  interrupts : κ → Bool
  code : ι → List (AlarmInstr α)
  lock : RecursiveLock ι
  alarms : Alarms α

inductive CpuAction (κ ι α : Type*) where
  /-- The thread on the CPU makes a call, or is interrupted by the timer. -/
  | call (c : κ) (call : AlarmCall α)
  | exec (c : κ)
  /-- The CPU goes on with another thread. -/
  | switch (c : κ) (t : ι)
  deriving DecidableEq, Repr

namespace AlarmCpus

variable {κ ι α : Type*} [DecidableEq κ] [DecidableEq ι] [DecidableEq α] (ticks : Nat → Int)

/-- The next instruction of the thread that the CPU runs. -/
def fetch (σ : AlarmCpus κ ι α) (c : κ) : Option (AlarmInstr α) := (σ.code (σ.running c)).head?

def setCode (σ : AlarmCpus κ ι α) (t : ι) (code : List (AlarmInstr α)) : AlarmCpus κ ι α :=
  { σ with code := Function.update σ.code t code }

open AlarmInstr in
/-- The instruction `i` of the thread `t` on the CPU `c`, with `rest` behind it. -/
def exec (σ : AlarmCpus κ ι α) (c : κ) (t : ι) (rest : List (AlarmInstr α)) :
    AlarmInstr α → AlarmCpus κ ι α
  | .intDisable => { σ.setCode t rest with interrupts := Function.update σ.interrupts c false }
  | .intEnable => { σ.setCode t rest with interrupts := Function.update σ.interrupts c true }
  | .acquire => { σ.setCode t rest with lock := σ.lock.acquire t }
  | .release => { σ.setCode t rest with lock := σ.lock.release }
  | .write w => { σ.setCode t rest with alarms := w.apply ticks σ.alarms }
  | .unlessLocked body =>
    -- `_lock.taken()`, whoever has taken it
    if σ.lock.owner ≠ none then σ.setCode t (body.map .write ++ rest)
    else σ.setCode t (AlarmInstr.lock ++ body.map .write ++ unlock ++ rest)
  | .create a alarm =>
    { σ.setCode t rest with alarms := (σ.alarms.setAlarm a (some alarm)).link a alarm.ticks }
  | .fire a => { σ.setCode t rest with alarms := σ.alarms.fire a }
  | .delete a => { σ.setCode t rest with alarms := σ.alarms.setAlarm a none }
  | .work => σ.setCode t rest

def step (σ : AlarmCpus κ ι α) : CpuAction κ ι α → AlarmCpus κ ι α
  | .call c call => σ.setCode (σ.running c) (call.code ticks ++ σ.code (σ.running c))
  | .exec c =>
    match σ.code (σ.running c) with
    | i :: rest => σ.exec ticks c (σ.running c) rest i
    | [] => σ
  | .switch c t => { σ with running := Function.update σ.running c t }

/-- A call, an interrupt or a switch takes place where interrupts are enabled or in the
    critical section of another user, and `acquire()` waits for the lock. -/
def CanStep (σ : AlarmCpus κ ι α) : CpuAction κ ι α → Prop
  | .call c _ => σ.interrupts c ∨ σ.fetch c = some .work
  | .exec c => σ.fetch c ≠ none ∧ (σ.fetch c = some .acquire → σ.lock.CanAcquire (σ.running c))
  | .switch c t => (σ.interrupts c ∨ σ.fetch c = some .work) ∧ ∀ c', σ.running c' ≠ t

instance [Fintype κ] (σ : AlarmCpus κ ι α) (a : CpuAction κ ι α) : Decidable (σ.CanStep a) := by
  cases a <;> unfold CanStep <;> infer_instance

/-- No thread is in a call, and every CPU runs a thread of its own. -/
def Idle (σ : AlarmCpus κ ι α) : Prop :=
  Function.Injective σ.running ∧ (∀ c, σ.interrupts c) ∧ (∀ t, σ.code t = []) ∧ σ.lock = {}

end AlarmCpus

def alarmCpus (κ ι α : Type*) [DecidableEq κ] [DecidableEq ι] [DecidableEq α]
    (w timerPeriod : Nat) : TransitionSystem (AlarmCpus κ ι α) (CpuAction κ ι α) where
  Init := AlarmCpus.Idle
  Enabled := AlarmCpus.CanStep
  next := AlarmCpus.step (ticks w timerPeriod)

instance (κ ι α : Type*) [DecidableEq κ] [DecidableEq ι] [DecidableEq α] [Fintype κ]
    (w timerPeriod : Nat) (σ : AlarmCpus κ ι α) (a : CpuAction κ ι α) :
    Decidable ((alarmCpus κ ι α w timerPeriod).Enabled σ a) :=
  inferInstanceAs (Decidable (σ.CanStep a))

end Epos
