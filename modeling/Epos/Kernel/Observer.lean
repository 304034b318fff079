import Epos.ForStd.TransitionSystem
import Epos.Kernel.SimpleList

/-!
# Observers

`utility/observer.h`: an observed object keeps a list of the `_link`s of its observers.
A condition is the rank of a link; the classes without conditions are given them here
too and ignore them. `attached` is not stored: it is what has been attached and not
detached since.
-/

namespace Epos

/-- What `attach()` does in `Observed`, in `Data_Observed<D, void>` and in
    `Conditionally_Observed<C>` and `Data_Observed<D, C>`. -/
inductive ObservedClass where
  | observed
  | dataObserved
  | conditional
  deriving DecidableEq, Repr

namespace ObservedClass

variable {α : Type*}

/-- The condition under which an observer is registered. -/
def condition (k : ObservedClass) (c : Int) : Int :=
  match k with
  | .conditional => c
  | _ => 0

/-- The elements from `e` on. -/
def visit (next : α → Option α) : Nat → Option α → Option (List α)
  | _, none => some []
  | 0, some _ => none
  | fuel + 1, some e => (visit next fuel (next e)).map (e :: ·)

/-- The observers that the loop of `notify(c)` updates, in this order. -/
def notifyWithin (k : ObservedClass) (fuel : Nat) (q : SimpleOrderedList α) (c : Int) :
    Option (List α) :=
  match k with
  | .conditional => (visit q.next fuel q.header.head).map (·.filter (q.rank · = c))
  | _ => visit q.next fuel q.header.head

def notify (k : ObservedClass) (q : SimpleOrderedList α) (c : Int) : Option (List α) :=
  k.notifyWithin q.findFuel q c

variable [DecidableEq α]

/-- `attach(o, c)`. All but `Observed` make a new link for the observer. -/
def attach (k : ObservedClass) (q : SimpleOrderedList α) (o : α) (c : Int) :
    Option (SimpleOrderedList α) :=
  match k with
  | .observed => (q.insertTail o).map fun l => { q with toSimpleList := l }
  | .dataObserved =>
    (SimpleList.insertTail { q with next := Function.update q.next o none } o).map fun l =>
      { q with toSimpleList := l }
  | .conditional =>
    SimpleOrderedList.insert false
      { q with next := Function.update q.next o none, rank := Function.update q.rank o c } o

end ObservedClass

/-- `detach(o, c)`, the same in every class. -/
def SimpleOrderedList.detach {α : Type*} [DecidableEq α] (q : SimpleOrderedList α) (o : α) :
    Option (SimpleOrderedList α) :=
  q.remove false o

structure Observation (α : Type*) where
  observers : Option (SimpleOrderedList α)
  attached : List (α × Int) := []

inductive ObserverAction (α : Type*) where
  | attach (o : α) (c : Int)
  | detach (o : α) (c : Int)
  deriving DecidableEq, Repr

def Observation.step {α : Type*} [DecidableEq α] (k : ObservedClass) (σ : Observation α) :
    ObserverAction α → Observation α
  | .attach o c =>
    { observers := σ.observers.bind (k.attach · o c)
      attached := σ.attached.insert (o, k.condition c) }
  | .detach o c =>
    { observers := σ.observers.bind (·.detach o)
      attached := σ.attached.erase (o, k.condition c) }

/-- An observed object without observers, and any observers. -/
def observation (α : Type*) [DecidableEq α] (k : ObservedClass) :
    TransitionSystem (Observation α) (ObserverAction α) where
  Init σ := (∃ next rank, σ.observers = some { next := next, header := {}, rank := rank }) ∧
    σ.attached = []
  Enabled _ _ := True
  next := Observation.step k

instance (α : Type*) [DecidableEq α] (k : ObservedClass) (σ : Observation α)
    (a : ObserverAction α) : Decidable ((observation α k).Enabled σ a) :=
  inferInstanceAs (Decidable True)

end Epos
