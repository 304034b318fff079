import Epos.ForStd.TransitionSystem
import Epos.Kernel.LinkedList

/-!
# The multihead list of `utility/list.h`

`Multihead_Scheduling_List` as it is stored: one ordered list and one chosen element for
each of `H` heads. Every method works on the current head, which is a parameter here.
Next to the methods stands what they are for, on sequences of elements instead of links.
-/

namespace Epos

structure MultiheadSchedulingList (H : Nat) extends LinkedList Tid where
  chosen : Fin H → Option Tid

namespace MultiheadSchedulingList

variable {H : Nat} (s : MultiheadSchedulingList H) (h : Fin H)

/-- The list as the head `h` sees it. -/
def atHead : LinkedSchedulingList Tid where
  toLinkedList := s.toLinkedList
  chosen := s.chosen h

def setHead (q : LinkedSchedulingList Tid) : MultiheadSchedulingList H where
  toLinkedList := q.toLinkedList
  chosen := Function.update s.chosen h q.chosen

/-- A method whose text is that of `Scheduling_List`, with `_chosen[R::current_head()]`
    for `_chosen`. -/
def onHead (f : LinkedSchedulingList Tid → Option (LinkedSchedulingList Tid)) :
    Option (MultiheadSchedulingList H) :=
  (f (s.atHead h)).map (s.setHead h)

def insert (rank : Tid → Int) (e : Tid) : Option (MultiheadSchedulingList H) :=
  s.onHead h (·.insert rank e)

/-- `remove(e)`. The search through all heads is commented out in the source. -/
def remove (e : Tid) : Option (MultiheadSchedulingList H) := s.onHead h (·.remove e)

/-- `choose()`, which asks no elector. -/
def choose (rank : Tid → Int) : Option (MultiheadSchedulingList H) :=
  if s.empty then some s
  else do
    let e ← s.chosen h
    let q ← s.toLinkedList.orderedInsert rank e
    let (x, q) ← q.removeHead
    some { toLinkedList := q, chosen := Function.update s.chosen h x }

def chooseAnother (rank : Tid → Int) : Option (MultiheadSchedulingList H) :=
  s.onHead h (·.chooseAnother rank (fun _ => true) Priority.idle)

/-- `choose(e)`, which returns what is then the chosen element. -/
def chooseElement (rank : Tid → Int) (e : Tid) : Option (MultiheadSchedulingList H) :=
  s.onHead h (·.chooseElement rank e)

end MultiheadSchedulingList

/-! ## What the list is for -/

/-- The elements that the heads have chosen and the listed ones. -/
structure Multihead (H : Nat) where
  chosen : Fin H → Option Tid
  list : List Tid

namespace Multihead

variable {H : Nat} (m : Multihead H) (h : Fin H)

/-- The element is chosen at some head or listed. -/
def Has (e : Tid) : Prop := (∃ h, m.chosen h = some e) ∨ e ∈ m.list

instance (e : Tid) : Decidable (m.Has e) := inferInstanceAs (Decidable (_ ∨ _))

/-- The list with the chosen element of the head in its place. -/
def returned (rank : Tid → Int) (l : List Tid) : List Tid :=
  (m.chosen h).elim l (l.insertRank rank)

/-- A head without a chosen element takes `e`, otherwise `e` is listed. -/
def insert (rank : Tid → Int) (e : Tid) : Multihead H :=
  if (m.chosen h).isSome then { m with list := m.list.insertRank rank e }
  else { m with chosen := Function.update m.chosen h (some e) }

/-- `e` is taken out, wherever it is. A head that had it gets the first listed element. -/
def remove (e : Tid) : Multihead H where
  chosen := fun h => if m.chosen h = some e then m.list.head? else m.chosen h
  list := if ∃ h, m.chosen h = some e then m.list.tail else m.list.erase e

/-- The head gets the first of its own and the listed elements. -/
def choose (rank : Tid → Int) : Multihead H where
  chosen := Function.update m.chosen h (m.returned h rank m.list).head?
  list := (m.returned h rank m.list).tail

/-- The head gets the first listed element unless this is one of the idle threads. -/
def chooseAnother (rank : Tid → Int) : Multihead H :=
  match m.list with
  | [] => m
  | x :: q =>
    if rank x = Priority.idle then m
    else
      { chosen := Function.update m.chosen h (some x)
        list := m.returned h rank q }

/-- The head gets `e`, unless another head has it. -/
def chooseElement (rank : Tid → Int) (e : Tid) : Multihead H :=
  if ∃ h, m.chosen h = some e then m
  else
    { chosen := Function.update m.chosen h (some e)
      list := (m.returned h rank m.list).erase e }

end Multihead

/-! ## Runs -/

/-- A call, with the current head and the ranks that the elements have at that time. -/
inductive HeadCall (H : Nat) where
  | insert (h : Fin H) (rank : Tid → Int) (e : Tid)
  | remove (h : Fin H) (e : Tid)
  | choose (h : Fin H) (rank : Tid → Int)
  | chooseAnother (h : Fin H) (rank : Tid → Int)
  | chooseElement (h : Fin H) (rank : Tid → Int) (e : Tid)

namespace HeadCall

variable {H : Nat}

def exec (s : MultiheadSchedulingList H) : HeadCall H → Option (MultiheadSchedulingList H)
  | insert h rank e => s.insert h rank e
  | remove h e => s.remove h e
  | choose h rank => s.choose h rank
  | chooseAnother h rank => s.chooseAnother h rank
  | chooseElement h rank e => s.chooseElement h rank e

def apply (m : Multihead H) : HeadCall H → Multihead H
  | insert h rank e => m.insert h rank e
  | remove _ e => m.remove e
  | choose h rank => m.choose h rank
  | chooseAnother h rank => m.chooseAnother h rank
  | chooseElement h rank e => m.chooseElement h rank e

/-- Elements are not inserted twice, and what is removed or chosen is there. -/
def Allowed (m : Multihead H) : HeadCall H → Prop
  | insert _ _ e => ¬ m.Has e
  | remove _ e => m.Has e
  | chooseElement _ _ e => m.Has e
  | choose _ _ => True
  | chooseAnother _ _ => True

instance (m : Multihead H) : (a : HeadCall H) → Decidable (a.Allowed m)
  | insert _ _ e => inferInstanceAs (Decidable (¬ m.Has e))
  | remove _ e => inferInstanceAs (Decidable (m.Has e))
  | chooseElement _ _ e => inferInstanceAs (Decidable (m.Has e))
  | choose _ _ => isTrue trivial
  | chooseAnother _ _ => isTrue trivial

end HeadCall

/-- The list in memory, as long as no null pointer was dereferenced, and the elements
    that should be on it. -/
structure MultiheadRun (H : Nat) where
  code : Option (MultiheadSchedulingList H)
  elements : Multihead H

/-- Any calls from any head, on a list that was empty. The links of the elements may hold
    whatever earlier lists left there. -/
def multiheadSystem (H : Nat) : TransitionSystem (MultiheadRun H) (HeadCall H) where
  Init r := r.elements = ⟨fun _ => none, []⟩ ∧
    ∃ s, r.code = some s ∧ s.header = {} ∧ ∀ h, s.chosen h = none
  Enabled r a := a.Allowed r.elements
  next r a := { code := r.code.bind fun s => a.exec s, elements := a.apply r.elements }

end Epos
