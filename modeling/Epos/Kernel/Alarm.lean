import Epos.Kernel.SimpleList
import Mathlib.Algebra.Group.Nat.Defs

/-!
# Alarms

`api/alarm.cc`: the queue `_request` of all alarms, the operations on an alarm and the
handler of the timer interrupt. `due` and `armed` are not stored anywhere: they record
when each alarm is due and in which order the queued ones were armed, and `fired` logs
the calls of the handlers of the alarms.
-/

namespace Epos

/-- `Alarm::ticks(time)`, for a `Time_Base` of `w` bits. The result is an `int`. -/
def ticks (w timerPeriod time : Nat) : Int :=
  Int.bmod (((time + timerPeriod / 2) % 2 ^ w / timerPeriod : Nat)) (2 ^ 32)

/-- The number of times of an alarm that never ends. -/
def infinite : Nat := 2 ^ 32 - 1

/-- The attributes of an alarm besides its `_link`. -/
structure Alarm where
  time : Nat
  times : Nat
  ticks : Int
  deriving DecidableEq, Repr

/-- A call of the handler of an alarm, when it was due and when it took place. -/
structure Firing (α : Type*) where
  alarm : α
  due : Int
  elapsed : Int
  deriving DecidableEq, Repr

/-! ## `remove(obj)` -/

/-- `Ordered_List::remove(obj)`, where each object has one element, with a bound on the
    steps of the search. -/
def RelativeList.removeObjectWithin {α : Type*} [DecidableEq α] (fuel : Nat) (q : RelativeList α)
    (obj : α) : Option (RelativeList α) := do
  let e ← findFrom q.links.next (· = obj) fuel q.header.head
  match e with
  | some e => q.remove e
  | none => some q

def RelativeList.removeObject {α : Type*} [DecidableEq α] (q : RelativeList α) (obj : α) :
    Option (RelativeList α) :=
  q.removeObjectWithin q.scanFuel obj

/-! ## `Alarm` -/

structure Alarms (α : Type*) where
  request : Option (RelativeList α)
  alarm : α → Option Alarm
  elapsed : Int
  due : α → Int
  armed : List α := []
  fired : List (Firing α) := []

namespace Alarms

variable {α : Type*} [DecidableEq α] (ticks : Nat → Int)

/-- `_request.remove(this)`. -/
def remove (σ : Alarms α) (a : α) : Alarms α :=
  { σ with request := σ.request.bind (·.removeObject a), armed := σ.armed.erase a }

/-- `_link.rank(r)`. -/
def setRank (σ : Alarms α) (a : α) (r : Int) : Alarms α :=
  { σ with request := σ.request.map fun q => { q with rank := Function.update q.rank a r } }

/-- `_request.insert(&_link)`, where the alarm has just got `_ticks` equal to `t`. -/
def insert (σ : Alarms α) (a : α) (t : Int) : Alarms α :=
  { σ with
    request := σ.request.bind (·.insert a)
    due := Function.update σ.due a (σ.elapsed + t)
    armed := σ.armed ++ [a] }

/-- The constructor of `_link`. -/
def link (σ : Alarms α) (a : α) (r : Int) : Alarms α :=
  { σ with
    request := σ.request.map fun q =>
      { q with
        links := (q.links.setPrev a none).setNext a none
        rank := Function.update q.rank a r } }

/-- The call of the handler of `a`. -/
def fire (σ : Alarms α) (a : α) : Alarms α :=
  { σ with fired := { alarm := a, due := σ.due a, elapsed := σ.elapsed } :: σ.fired }

def setAlarm (σ : Alarms α) (a : α) (alarm : Option Alarm) : Alarms α :=
  { σ with alarm := Function.update σ.alarm a alarm }

/-- The constructor. The handler of an alarm that is due at once is called by it. -/
def construct (σ : Alarms α) (a : α) (time times : Nat) : Alarms α :=
  let t := ticks time
  let σ := (σ.setAlarm a (some { time, times := times % 2 ^ 32, ticks := t })).link a t
  if t ≠ 0 then σ.insert a t
  else fire { σ with due := Function.update σ.due a (σ.elapsed + t) } a

/-- The destructor. -/
def destroy (σ : Alarms α) (a : α) : Alarms α := (σ.remove a).setAlarm a none

def reset (σ : Alarms α) (a : α) : Alarms α :=
  match σ.alarm a with
  | some alarm => ((σ.remove a).setRank a alarm.ticks).insert a alarm.ticks
  | none => σ

/-- `period(p)`. Unlike `reset()` it leaves the rank of the link as it is. -/
def period (σ : Alarms α) (a : α) (p : Nat) : Alarms α :=
  match σ.alarm a with
  | some alarm =>
    ((σ.remove a).setAlarm a (some { alarm with time := p, ticks := ticks p })).insert a (ticks p)
  | none => σ

/-- `_times--`, unless the alarm never ends. -/
def decrement (times : Nat) : Nat :=
  if times ≠ infinite then (times + infinite) % 2 ^ 32 else times

/-- What the interrupt handler does with the alarm `a` that it has taken from the queue. -/
def expire (σ : Alarms α) (a : α) : Alarms α :=
  match σ.alarm a with
  | some alarm =>
    let times := decrement alarm.times
    let σ := (σ.fire a).setAlarm a (some { alarm with times := times })
    if 0 < times then (σ.setRank a alarm.ticks).insert a alarm.ticks else σ
  | none => { σ with request := none }

/-- `Alarm::handler`: at most one alarm is served for each tick. -/
def handler (σ : Alarms α) : Alarms α :=
  let σ := { σ with elapsed := σ.elapsed + 1 }
  match σ.request with
  | none => σ
  | some q =>
    if q.empty then σ
    else
      -- `promote()` lets the head get nearer by one tick
      match q.promoteHead 1, q.header.head with
      | some q, some head =>
        if q.rank head ≤ 0 then
          match q.removeHead with
          | some (some a, q) => { σ with request := some q, armed := σ.armed.erase a }.expire a
          -- a null head, or an element that is not in the list any more
          | _ => { σ with request := none }
        else { σ with request := some q }
      | _, _ => { σ with request := none }

end Alarms

end Epos
