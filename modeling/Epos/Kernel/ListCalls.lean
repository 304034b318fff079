import Epos.Kernel.LinkedList

/-!
# Calls on a `List` and on an `Ordered_List`

The public methods of both classes as calls that can follow each other in any order,
and next to what they do to the memory what they mean for a sequence of elements.
-/

namespace Epos

inductive ListCall (α β : Type*)
  | insertHead (e : α)
  | insertTail (e : α)
  /-- `Ordered_List::insert(e)`. -/
  | insert (e : α)
  | removeHead
  | removeTail
  | remove (e : α)
  | removeObject (obj : β)
  | removeRank (r : Int)
  deriving DecidableEq, Repr

namespace ListCall

variable {α β : Type*} [DecidableEq α] [DecidableEq β] (rank : α → Int) (object : α → β)

/-- The returned element and the list afterwards. -/
def exec (q : LinkedList α) : ListCall α β → Option (Option α × LinkedList α)
  | insertHead e => (q.insertHead e).map fun q => (none, q)
  | insertTail e => (q.insertTail e).map fun q => (none, q)
  | insert e => (q.orderedInsert rank e).map fun q => (none, q)
  | removeHead => q.removeHead
  | removeTail => q.removeTail
  | remove e => (q.remove e).map fun q => (some e, q)
  | removeObject obj => q.removeObject object obj
  | removeRank r => q.removeRank rank r

/-- All returned elements and the list after the calls. -/
def execAll (q : LinkedList α) : List (ListCall α β) → Option (List (Option α) × LinkedList α)
  | [] => some ([], q)
  | c :: cs => do
    let (x, q) ← c.exec rank object q
    let (xs, q) ← execAll q cs
    some (x :: xs, q)

/-! ## What the calls mean -/

/-- What the call inserts. -/
def inserted : ListCall α β → Option α
  | insertHead e => some e
  | insertTail e => some e
  | insert e => some e
  | _ => none

/-- What the call takes out of a sequence of elements. -/
def removed (l : List α) : ListCall α β → Option α
  | removeHead => l.head?
  | removeTail => l.getLast?
  | remove e => some e
  | removeObject obj => l.find? (object · = obj)
  | removeRank r => l.find? (rank · = r)
  | _ => none

def result (l : List α) : ListCall α β → List α
  | insertHead e => e :: l
  | insertTail e => l ++ [e]
  | insert e => l.insertRank rank e
  | c => (c.removed rank object l).elim l l.erase

/-- The elements of the sequence by the time of their insertion, which were `members`. -/
def arrivals (l members : List α) (c : ListCall α β) : List α :=
  match c.inserted with
  | some e => members ++ [e]
  | none => (c.removed rank object l).elim members members.erase

/-- No element is inserted twice, and `remove(e)` gets a member. -/
def Allowed (l : List α) : ListCall α β → Prop
  | insertHead e => e ∉ l
  | insertTail e => e ∉ l
  | insert e => e ∉ l
  | remove e => e ∈ l
  | _ => True

instance (l : List α) : (c : ListCall α β) → Decidable (c.Allowed l)
  | insertHead e => inferInstanceAs (Decidable (e ∉ l))
  | insertTail e => inferInstanceAs (Decidable (e ∉ l))
  | insert e => inferInstanceAs (Decidable (e ∉ l))
  | remove e => inferInstanceAs (Decidable (e ∈ l))
  | removeHead => isTrue trivial
  | removeTail => isTrue trivial
  | removeObject _ => isTrue trivial
  | removeRank _ => isTrue trivial

/-! ### Sequences of calls -/

def removedAll (l : List α) : List (ListCall α β) → List (Option α)
  | [] => []
  | c :: cs => c.removed rank object l :: removedAll (c.result rank object l) cs

def resultAll (l : List α) : List (ListCall α β) → List α
  | [] => l
  | c :: cs => resultAll (c.result rank object l) cs

def arrivalsAll (l members : List α) : List (ListCall α β) → List α
  | [] => members
  | c :: cs => arrivalsAll (c.result rank object l) (c.arrivals rank object l members) cs

def AllAllowed (l : List α) : List (ListCall α β) → Prop
  | [] => True
  | c :: cs => c.Allowed l ∧ AllAllowed (c.result rank object l) cs

instance decidableAllAllowed :
    (l : List α) → (cs : List (ListCall α β)) → Decidable (AllAllowed rank object l cs)
  | _, [] => isTrue trivial
  | l, c :: cs =>
    have := decidableAllAllowed (c.result rank object l) cs
    inferInstanceAs (Decidable (_ ∧ _))

/-- Nothing is inserted with `insert_head` or `insert_tail`. -/
def Ordered : ListCall α β → Prop
  | insertHead _ => False
  | insertTail _ => False
  | _ => True

end ListCall

end Epos
