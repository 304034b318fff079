import Epos.Kernel.Synchronizer

/-!
# The scheduling list of a core

`Scheduling_List` of `utility/list.h`: the chosen thread is kept outside an
ordered list of the threads that are ready. The list is ordered by the threads'
criteria, which are read where they are at the time of the call, and `eligible`
is the criterion's elector.
-/

namespace Epos

structure SchedulingList where
  chosen : Option Tid := none
  list : List Tid := []
  deriving DecidableEq, Repr

namespace SchedulingList

variable (rank : Tid → Int) (eligible : Tid → Bool)

/-- The chosen thread and the listed ones. -/
def toList (l : SchedulingList) : List Tid := l.chosen.toList ++ l.list

def insert (l : SchedulingList) (e : Tid) : SchedulingList :=
  match l.chosen with
  | some _ => { l with list := l.list.insertRank rank e }
  | none => { l with chosen := some e }

/-- Removing the chosen thread makes the head the chosen one; no elector is asked. -/
def remove (l : SchedulingList) (e : Tid) : SchedulingList :=
  if l.chosen = some e then { chosen := l.list.head?, list := l.list.tail }
  else { l with list := l.list.erase e }

def choose (l : SchedulingList) : SchedulingList :=
  match l.chosen, l.list with
  | some e, h :: _ =>
    if eligible h then
      let q := l.list.insertRank rank e
      { chosen := q.head?, list := q.tail }
    else l
  | _, _ => l

/-- `choose_another`: the head is taken before the chosen thread is inserted. -/
def chooseAnother (l : SchedulingList) : SchedulingList :=
  match l.chosen, l.list with
  | some e, h :: q =>
    if eligible h ∧ rank h ≠ Priority.idle then
      { chosen := some h, list := q.insertRank rank e }
    else l
  | _, _ => l

/-- `choose(e)`: the chosen thread is inserted before `e` is taken out. -/
def chooseElement (l : SchedulingList) (e : Tid) : SchedulingList :=
  match l.chosen with
  | some x =>
    if x = e then l else { chosen := some e, list := (l.list.insertRank rank x).erase e }
  | none => l

end SchedulingList

end Epos
