import Epos.ForStd.IntrusiveList
import Epos.Kernel.SchedulingList

/-!
# The lists of `utility/list.h` in memory

`List`, `Ordered_List` and `Scheduling_List` as they are stored: the elements are
the `_link`s of the threads, each with one `_prev` and one `_next` for all lists,
and a list is its `_size`, `_head` and `_tail`. A method returns `none` where it
dereferences a null pointer or does not terminate.
-/

namespace Epos

/-- A list object together with the links of all elements. -/
structure LinkedList (α : Type*) where
  links : Links α
  header : ListHeader α

namespace LinkedList

variable {α : Type*}

/-! ## `List` -/

def empty (q : LinkedList α) : Bool := q.header.size == 0

def last (q : LinkedList α) : Bool := q.header.size == 1

variable [DecidableEq α]

def insertFirst (q : LinkedList α) (e : α) : LinkedList α where
  links := (q.links.setPrev e none).setNext e none
  header := { size := q.header.size + 1, head := some e, tail := some e }

def insertHead (q : LinkedList α) (e : α) : Option (LinkedList α) :=
  if q.empty then some (q.insertFirst e)
  else do
    let L := (q.links.setPrev e none).setNext e q.header.head
    let x ← q.header.head
    some
      { links := L.setPrev x (some e)
        header := { q.header with size := q.header.size + 1, head := some e } }

def insertTail (q : LinkedList α) (e : α) : Option (LinkedList α) :=
  if q.empty then some (q.insertFirst e)
  else do
    let x ← q.header.tail
    some
      { links := ((q.links.setNext x (some e)).setPrev e (some x)).setNext e none
        header := { q.header with size := q.header.size + 1, tail := some e } }

/-- `List::insert(e, p, n)`. -/
def insertBetween (q : LinkedList α) (e p n : α) : LinkedList α where
  links :=
    (((q.links.setNext p (some e)).setPrev n (some e)).setPrev e (some p)).setNext e (some n)
  header := { q.header with size := q.header.size + 1 }

def removeLast (q : LinkedList α) : Option α × LinkedList α :=
  (q.header.head,
    { links := q.links
      header := { size := q.header.size - 1, head := none, tail := none } })

/-- `List::remove_head`, which returns a null pointer if the list is empty. -/
def removeHead (q : LinkedList α) : Option (Option α × LinkedList α) :=
  if q.empty then some (none, q)
  else if q.last then some q.removeLast
  else do
    let e ← q.header.head
    let x ← q.links.next e
    some (some e,
      { links := q.links.setPrev x none
        header := { q.header with size := q.header.size - 1, head := some x } })

def removeTail (q : LinkedList α) : Option (Option α × LinkedList α) :=
  if q.empty then some (none, q)
  else if q.last then some q.removeLast
  else do
    let e ← q.header.tail
    let x ← q.links.prev e
    some (some e,
      { links := q.links.setNext x none
        header := { q.header with size := q.header.size - 1, tail := some x } })

/-- `List::remove(e)`. Whether `e` is in this list is not checked. -/
def remove (q : LinkedList α) (e : α) : Option (LinkedList α) :=
  if q.last then some q.removeLast.2
  else
    match q.links.prev e, q.links.next e with
    -- the head has no element in front, the tail none behind
    | none, _ => q.removeHead.map Prod.snd
    | some _, none => q.removeTail.map Prod.snd
    | some p, some n =>
      let L := q.links.setNext p (some n)
      (L.next e).map fun n =>
        { links := L.setPrev n (L.prev e)
          header := { q.header with size := q.header.size - 1 } }

/-! ## `Ordered_List` -/

variable (rank : α → Int)

/-- The loop of `Ordered_List::insert`, from the element `x` on. It ends at the first
    element with a larger rank than `e` or at the last one. -/
def scan (L : Links α) (e : α) : Nat → α → Option α
  | 0, _ => none
  | fuel + 1, x =>
    if rank x ≤ rank e then
      match L.next x with
      | some y => scan L e fuel y
      | none => some x
    else some x

/-- `Ordered_List::insert(e)` with a bound on the steps of its loop. -/
def orderedInsertWithin (fuel : Nat) (q : LinkedList α) (e : α) : Option (LinkedList α) :=
  if q.empty then some (q.insertFirst e)
  else do
    let head ← q.header.head
    let x ← scan rank q.links e fuel head
    -- the loop stops at the last element even when that is not after `e`
    if rank x ≤ rank e then q.insertTail e
    else
      match q.links.prev x with
      | none => q.insertHead e
      | some p => some (q.insertBetween e p x)

/-- There are fewer elements than addresses, so that a loop which takes longer than
    this runs in a circle. -/
def scanFuel (q : LinkedList α) : Nat := q.header.size.toNat + 2 ^ 32

/-- `Ordered_List::insert(e)`. -/
def orderedInsert (q : LinkedList α) (e : α) : Option (LinkedList α) :=
  q.orderedInsertWithin rank q.scanFuel e

end LinkedList

/-- The loops of `search(obj)` and its like, from the element `x` on: they end at the first
    element with `p`. -/
def findFrom {α : Type*} (next : α → Option α) (p : α → Bool) :
    Nat → Option α → Option (Option α)
  | _, none => some none
  | 0, some _ => none
  | fuel + 1, some x => if p x then some (some x) else findFrom next p fuel (next x)

/-! ## Removal by what an element holds -/

namespace LinkedList

variable {α β : Type*} [DecidableEq β]

/-- `search(obj)`, with the object that each element was made for. -/
def search (object : α → β) (q : LinkedList α) (obj : β) : Option (Option α) :=
  findFrom q.links.next (object · = obj) q.scanFuel q.header.head

def searchRank (rank : α → Int) (q : LinkedList α) (r : Int) : Option (Option α) :=
  findFrom q.links.next (rank · = r) q.scanFuel q.header.head

variable [DecidableEq α]

/-- What `remove(obj)` and `remove_rank` do with the result of their search. -/
def removeFound (q : LinkedList α) : Option α → Option (Option α × LinkedList α)
  | some e => (q.remove e).map fun q => (some e, q)
  | none => some (none, q)

def removeObject (object : α → β) (q : LinkedList α) (obj : β) :
    Option (Option α × LinkedList α) := do
  let e ← q.search object obj
  q.removeFound e

def removeRank (rank : α → Int) (q : LinkedList α) (r : Int) :
    Option (Option α × LinkedList α) := do
  let e ← q.searchRank rank r
  q.removeFound e

end LinkedList

/-! ## `Scheduling_List` -/

structure LinkedSchedulingList (α : Type*) extends LinkedList α where
  chosen : Option α

namespace LinkedSchedulingList

variable {α : Type*} [DecidableEq α] (rank : α → Int) (eligible : α → Bool)

def insert (s : LinkedSchedulingList α) (e : α) : Option (LinkedSchedulingList α) :=
  match s.chosen with
  | some _ => (s.toLinkedList.orderedInsert rank e).map fun q => { s with toLinkedList := q }
  | none => some { s with chosen := some e }

def remove (s : LinkedSchedulingList α) (e : α) : Option (LinkedSchedulingList α) :=
  if s.chosen = some e then
    s.toLinkedList.removeHead.map fun (x, q) => { toLinkedList := q, chosen := x }
  else (s.toLinkedList.remove e).map fun q => { s with toLinkedList := q }

def choose (s : LinkedSchedulingList α) : Option (LinkedSchedulingList α) :=
  if s.empty then some s
  else do
    let head ← s.header.head
    -- the thread that runs goes back into the list, and the head comes out
    if eligible head then
      let e ← s.chosen
      let q ← s.toLinkedList.orderedInsert rank e
      let (x, q) ← q.removeHead
      some { toLinkedList := q, chosen := x }
    else some s

def chooseAnother (idle : Int) (s : LinkedSchedulingList α) : Option (LinkedSchedulingList α) :=
  if s.empty then some s
  else do
    let head ← s.header.head
    if eligible head ∧ rank head ≠ idle then
      let (x, q) ← s.toLinkedList.removeHead
      let e ← s.chosen
      let q ← q.orderedInsert rank e
      some { toLinkedList := q, chosen := x }
    else some s

/-- `choose(e)`, which returns what is then the chosen element. -/
def chooseElement (s : LinkedSchedulingList α) (e : α) : Option (LinkedSchedulingList α) :=
  if s.chosen = some e then some s
  else do
    let x ← s.chosen
    let q ← s.toLinkedList.orderedInsert rank x
    let q ← q.remove e
    some { toLinkedList := q, chosen := some e }

end LinkedSchedulingList

end Epos
