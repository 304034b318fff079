import Epos.Kernel.LinkedList

/-!
# `Grouping_List`

A list of ranges of objects. An element is known by the first object of its range, in
whose place it is stored.
-/

namespace Epos

structure GroupingList where
  list : LinkedList Nat
  size : Nat → Nat
  groupedSize : Nat

namespace GroupingList

/-- `new (obj) Element(obj, n)`. -/
def construct (g : GroupingList) (e n : Nat) : GroupingList where
  list := { g.list with links := (g.list.links.setPrev e none).setNext e none }
  size := Function.update g.size e n
  groupedSize := g.groupedSize

def find (g : GroupingList) (p : Nat → Bool) : Option (Option Nat) :=
  findFrom g.list.links.next p g.list.scanFuel g.list.header.head

/-- Whether a range of `n` objects is good for `s`. Where an object is smaller than an
    element, `slack` is how many objects have to be left over for the element, unless none
    are. -/
def fits (slack : Option Nat) (s n : Nat) : Bool :=
  match slack with
  | some k => ¬(n < k + s ∧ n ≠ s)
  | none => ¬n < s

def searchSize (slack : Option Nat) (g : GroupingList) (s : Nat) : Option (Option Nat) :=
  g.find fun e => fits slack s (g.size e)

def search (g : GroupingList) (obj : Nat) : Option (Option Nat) := g.find (· = obj)

def searchLeft (g : GroupingList) (obj : Nat) : Option (Option Nat) :=
  g.find fun e => e + g.size e = obj

/-- `insert_merging(e)` from where `r` and `l` have been searched for. -/
def merge (g : GroupingList) (e : Nat) (r l : Option Nat) : Option GroupingList := do
  -- the new element joins the list only when no group ends where it begins
  let g ← match l with
    | none => (g.list.insertTail e).map fun q => { g with list := q }
    | some _ => some g
  -- the neighbour on the right is taken over, also by an element that goes away next
  let g ← match r with
    | some r =>
      (g.list.remove r).map fun q =>
        { g with list := q, size := Function.update g.size e (g.size e + g.size r) }
    | none => some g
  match l with
  | some l => some { g with size := Function.update g.size l (g.size l + g.size e) }
  | none => some g

def insertMerging (g : GroupingList) (e : Nat) : Option GroupingList := do
  let g := { g with groupedSize := g.groupedSize + g.size e }
  let r ← g.search (e + g.size e)
  let l ← g.searchLeft e
  g.merge e r l

def searchDecrementing (slack : Option Nat) (g : GroupingList) (s : Nat) :
    Option (Option Nat × GroupingList) := do
  let e ← g.searchSize slack s
  match e with
  | some e =>
    let g :=
      { g with
        size := Function.update g.size e (g.size e - s)
        groupedSize := g.groupedSize - s }
    if g.size e = 0 then (g.list.remove e).map fun q => (some e, { g with list := q })
    else some (some e, g)
  | none => some (none, g)

end GroupingList

end Epos
