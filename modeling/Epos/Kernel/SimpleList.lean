import Epos.Kernel.LinkedList

/-!
# The singly-linked and the relative lists of `utility/list.h`

`Simple_List`, `Simple_Ordered_List` and, for the elements of `Ordered_List`, what
becomes of it if it is `relative`: the rank of an element is then stored as the
difference to the one in front, and `insert` and `remove` write ranks.
-/

namespace Epos

/-! ## `Simple_List` -/

structure SimpleList (α : Type*) where
  next : α → Option α
  header : ListHeader α

namespace SimpleList

variable {α : Type*}

def empty (q : SimpleList α) : Bool := q.header.size == 0

def last (q : SimpleList α) : Bool := q.header.size == 1

variable [DecidableEq α]

def insertFirst (q : SimpleList α) (e : α) : SimpleList α where
  next := Function.update q.next e none
  header := { size := q.header.size + 1, head := some e, tail := some e }

def insertHead (q : SimpleList α) (e : α) : SimpleList α :=
  if q.empty then q.insertFirst e
  else
    { next := Function.update q.next e q.header.head
      header := { q.header with size := q.header.size + 1, head := some e } }

def insertTail (q : SimpleList α) (e : α) : Option (SimpleList α) :=
  if q.empty then some (q.insertFirst e)
  else do
    let x ← q.header.tail
    some
      { next := Function.update (Function.update q.next x (some e)) e none
        header := { q.header with size := q.header.size + 1, tail := some e } }

/-- `Simple_List::insert(e, p, n)`. -/
def insertBetween (q : SimpleList α) (e p n : α) : SimpleList α where
  next := Function.update (Function.update q.next p (some e)) e (some n)
  header := { q.header with size := q.header.size + 1 }

def removeLast (q : SimpleList α) : Option α × SimpleList α :=
  (q.header.head,
    { next := q.next
      header := { size := q.header.size - 1, head := none, tail := none } })

def removeHead (q : SimpleList α) : Option (Option α × SimpleList α) :=
  if q.empty then some (none, q)
  else if q.last then some q.removeLast
  else do
    let e ← q.header.head
    some (some e, { q with header := { q.header with size := q.header.size - 1, head := q.next e } })

/-- The loop of `Simple_List::remove(e)`, from the element `p` on. It ends in front of `e`
    or at the last element. -/
def findPrev (next : α → Option α) (e : α) : Nat → α → Option α
  | 0, _ => none
  | fuel + 1, p =>
    match next p with
    | some x => if x ≠ e then findPrev next e fuel x else some p
    | none => some p

/-- `Simple_List::remove(e)` with a bound on the steps of its loop. Whether `e` is in this
    list is not checked. -/
def removeWithin (fuel : Nat) (q : SimpleList α) (e : α) : Option (SimpleList α) :=
  if q.last then some q.removeLast.2
  else if q.header.head = some e then q.removeHead.map Prod.snd
  else
    match q.header.head with
    -- `p` is null: only the tail and the size are written
    | none =>
      some
        { q with
          header :=
            { q.header with
              size := q.header.size - 1
              tail := if q.header.tail = some e then none else q.header.tail } }
    | some x => do
      let p ← findPrev q.next e fuel x
      some
        { next := Function.update q.next p (q.next e)
          header :=
            { q.header with
              size := q.header.size - 1
              tail := if q.header.tail = some e then some p else q.header.tail } }

/-- There are fewer elements than addresses, as in `LinkedList.scanFuel`. -/
def findFuel (q : SimpleList α) : Nat := q.header.size.toNat + 2 ^ 32

def remove (q : SimpleList α) (e : α) : Option (SimpleList α) :=
  q.removeWithin q.findFuel e

end SimpleList

/-! ## `Ordered_List::insert` and `Simple_Ordered_List::insert` -/

/-- Their loop, from the element `x` with `prev` in front on. It ends at the first element
    with a larger rank than `e` or at the last one. -/
def walk {α : Type*} [DecidableEq α] (relative : Bool) (next : α → Option α) (e : α) :
    Nat → (α → Int) → Option α → α → Option (Option α × α × (α → Int))
  | 0, _, _, _ => none
  | fuel + 1, rank, prev, x =>
    if rank x ≤ rank e then
      -- relative ranks: what is passed is taken off the new element
      match next x with
      | some y =>
        let rank := if relative then Function.update rank e (rank e - rank x) else rank
        walk relative next e fuel rank (some x) y
      | none => some (prev, x, rank)
    else some (prev, x, rank)

/-- After a removal the next element gets the rank of the removed one. -/
def giveBack {α : Type*} [DecidableEq α] (next : α → Option α) (rank : α → Int) (e : α) :
    α → Int :=
  match next e with
  | some x => Function.update rank x (rank x + rank e)
  | none => rank

/-- A `Simple_Ordered_List` and the ranks of the elements. -/
structure SimpleOrderedList (α : Type*) extends SimpleList α where
  rank : α → Int

namespace SimpleOrderedList

variable {α : Type*} [DecidableEq α] (relative : Bool)

def insertWithin (fuel : Nat) (q : SimpleOrderedList α) (e : α) : Option (SimpleOrderedList α) :=
  if q.empty then some { q with toSimpleList := q.insertFirst e }
  else do
    let head ← q.header.head
    -- the loop ends at the last element or in front of a later one
    let (prev, x, rank) ← walk relative q.next e fuel q.rank none head
    if rank x ≤ rank e then
      let rank := if relative then Function.update rank e (rank e - rank x) else rank
      let l ← q.insertTail e
      some { toSimpleList := l, rank := rank }
    -- the element behind the new one counts from it on
    else
      let rank := if relative then Function.update rank x (rank x - rank e) else rank
      match prev with
      | none => some { toSimpleList := q.insertHead e, rank := rank }
      | some p => some { toSimpleList := q.insertBetween e p x, rank := rank }

def insert (q : SimpleOrderedList α) (e : α) : Option (SimpleOrderedList α) :=
  q.insertWithin relative q.findFuel e

def removeHead (q : SimpleOrderedList α) : Option (Option α × SimpleOrderedList α) := do
  let (e, l) ← q.toSimpleList.removeHead
  match e with
  | some x =>
    let rank := if relative then giveBack l.next q.rank x else q.rank
    some (some x, { toSimpleList := l, rank := rank })
  | none => some (none, { toSimpleList := l, rank := q.rank })

def remove (q : SimpleOrderedList α) (e : α) : Option (SimpleOrderedList α) := do
  let l ← q.toSimpleList.remove e
  some { toSimpleList := l, rank := if relative then giveBack l.next q.rank e else q.rank }

/-- `head()->promote(n)`. -/
def promoteHead (q : SimpleOrderedList α) (n : Int) : Option (SimpleOrderedList α) := do
  let x ← q.header.head
  some { q with rank := Function.update q.rank x (q.rank x - n) }

end SimpleOrderedList

/-! ## `Relative_List` -/

structure RelativeList (α : Type*) extends LinkedList α where
  rank : α → Int

namespace RelativeList

variable {α : Type*} [DecidableEq α]

def insertWithin (fuel : Nat) (q : RelativeList α) (e : α) : Option (RelativeList α) :=
  if q.empty then some { q with toLinkedList := q.insertFirst e }
  else do
    let head ← q.header.head
    let (_, x, rank) ← walk true q.links.next e fuel q.rank none head
    -- the loop ends at the last element or in front of a later one
    if rank x ≤ rank e then
      let l ← q.insertTail e
      some { toLinkedList := l, rank := Function.update rank e (rank e - rank x) }
    else
      let rank := Function.update rank x (rank x - rank e)
      match q.links.prev x with
      | none => do
        let l ← q.insertHead e
        some { toLinkedList := l, rank := rank }
      | some p => some { toLinkedList := q.insertBetween e p x, rank := rank }

def insert (q : RelativeList α) (e : α) : Option (RelativeList α) :=
  q.insertWithin q.scanFuel e

def removeHead (q : RelativeList α) : Option (Option α × RelativeList α) := do
  let (e, l) ← q.toLinkedList.removeHead
  match e with
  | some x => some (some x, { toLinkedList := l, rank := giveBack l.links.next q.rank x })
  | none => some (none, { toLinkedList := l, rank := q.rank })

def remove (q : RelativeList α) (e : α) : Option (RelativeList α) := do
  let l ← q.toLinkedList.remove e
  some { toLinkedList := l, rank := giveBack l.links.next q.rank e }

def promoteHead (q : RelativeList α) (n : Int) : Option (RelativeList α) := do
  let x ← q.header.head
  some { q with rank := Function.update q.rank x (q.rank x - n) }

end RelativeList

end Epos
