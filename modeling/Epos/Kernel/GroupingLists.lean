import Epos.ForStd.Span
import Epos.ForStd.TransitionSystem
import Epos.Kernel.SimpleList
import Mathlib.Algebra.Group.Nat.Defs

/-!
# Both grouping lists

`Simple_Grouping_List` and `Grouping_List` of any type of objects, with the elements apart
from the objects and the 32 bits of sizes and addresses. Next to them stands the sequence
of ranges that both are meant to be.
-/

namespace Epos

/-- `sizeof(Object_Type)` and `sizeof(Element)`. -/
structure GroupingSizes where
  object : Nat
  element : Nat
  object_pos : 0 < object

/-- What is stored besides the links: the first object of each element, how many objects it
    groups, and `_grouped_size`. -/
structure Grouping (α : Type*) where
  object : α → Nat
  size : α → Nat
  groupedSize : Nat

/-- What `insert_merging` reports in `m1` and `m2`, and `search_decrementing` returns. -/
inductive GroupingReport (α : Type*) where
  | merged (m1 m2 : Option α)
  | taken (e : Option α)
  deriving DecidableEq, Repr

namespace Grouping

variable {α : Type*} [DecidableEq α] (z : GroupingSizes) (g : Grouping α)

omit [DecidableEq α] in
/-- `e->object() + e->size()`. -/
def stop (e : α) : Nat := (g.object e + z.object * g.size e) % 2 ^ 32

omit [DecidableEq α] in
/-- Whether the loop of `search_size(s)` ends at a range of `n` objects. -/
def fits (s n : Nat) : Bool :=
  if z.object < z.element then ¬(n < (z.element / z.object + s) % 2 ^ 32 ∧ n ≠ s) else ¬n < s

/-- `new Element(obj, n)`. -/
def construct (e : α) (obj n : Nat) : Grouping α :=
  { g with object := Function.update g.object e obj, size := Function.update g.size e n }

def setSize (e : α) (n : Nat) : Grouping α := { g with size := Function.update g.size e n }

/-- `e->size(e->size() + r->size())`. -/
def add (e r : α) : Grouping α := g.setSize e ((g.size e + g.size r) % 2 ^ 32)

/-- `_grouped_size += n`. -/
def grow (n : Nat) : Grouping α := { g with groupedSize := (g.groupedSize + n) % 2 ^ 32 }

/-- The difference of unsigned numbers. -/
def minus (n s : Nat) : Nat := (n + (2 ^ 32 - s)) % 2 ^ 32

/-- `e->shrink(s); _grouped_size -= s;`. -/
def shrink (e : α) (s : Nat) : Grouping α :=
  { g.setSize e (minus (g.size e) s) with groupedSize := minus g.groupedSize s }

end Grouping

/-! ## `Simple_Grouping_List` -/

structure SimpleGroupingList (α : Type*) extends Grouping α where
  list : SimpleList α

namespace SimpleGroupingList

variable {α : Type*} [DecidableEq α] (z : GroupingSizes) (g : SimpleGroupingList α)

def construct (e : α) (obj n : Nat) : SimpleGroupingList α where
  toGrouping := g.toGrouping.construct e obj n
  list := { g.list with next := Function.update g.list.next e none }

def find (p : α → Bool) : Option (Option α) :=
  findFrom g.list.next p g.list.findFuel g.list.header.head

/-- What follows a successful search for the right neighbour. -/
def absorb (e : α) : Option α → Option (SimpleGroupingList α)
  | some r => (g.list.remove r).map fun q => { toGrouping := g.add e r, list := q }
  | none => some g

/-- What follows the search for the left neighbour, after the right one was absorbed. -/
def attach (e : α) : Option α → Option (SimpleGroupingList α)
  | some l => some { g with toGrouping := g.add l e }
  | none => (g.list.insertTail e).map fun q => { g with list := q }

def insertMerging (e : α) : Option (GroupingReport α × SimpleGroupingList α) := do
  let g := { g with toGrouping := g.grow (g.size e) }
  let r ← g.find (g.object · = g.stop z e)
  let l ← g.find (g.stop z · = g.object e)
  let g ← g.absorb e r
  let g ← g.attach e l
  some (.merged r (l.map fun _ => e), g)

def searchDecrementing (s : Nat) : Option (GroupingReport α × SimpleGroupingList α) := do
  let e ← g.find fun e => Grouping.fits z s (g.size e)
  match e with
  | some e =>
    let g := { g with toGrouping := g.shrink e s }
    if g.size e = 0 then
      (g.list.remove e).map fun q => (.taken (some e), { g with list := q })
    else some (.taken (some e), g)
  | none => some (.taken none, g)

end SimpleGroupingList

/-! ## `Grouping_List` -/

structure LinkedGroupingList (α : Type*) extends Grouping α where
  list : LinkedList α

namespace LinkedGroupingList

variable {α : Type*} [DecidableEq α] (z : GroupingSizes) (g : LinkedGroupingList α)

def construct (e : α) (obj n : Nat) : LinkedGroupingList α where
  toGrouping := g.toGrouping.construct e obj n
  list := { g.list with links := (g.list.links.setPrev e none).setNext e none }

def find (p : α → Bool) : Option (Option α) :=
  findFrom g.list.links.next p g.list.scanFuel g.list.header.head

/-- `if(!l) insert_tail(e);`. -/
def append (e : α) : Option α → Option (LinkedGroupingList α)
  | some _ => some g
  | none => (g.list.insertTail e).map fun q => { g with list := q }

/-- `if(r) { e->size(e->size() + r->size()); remove(r); *m1 = r; }`. -/
def absorb (e : α) : Option α → Option (LinkedGroupingList α)
  | some r => (g.list.remove r).map fun q => { toGrouping := g.add e r, list := q }
  | none => some g

/-- `if(l) { l->size(l->size() + e->size()); *m2 = e; }`. -/
def extend (e : α) : Option α → LinkedGroupingList α
  | some l => { g with toGrouping := g.add l e }
  | none => g

def insertMerging (e : α) : Option (GroupingReport α × LinkedGroupingList α) := do
  let g := { g with toGrouping := g.grow (g.size e) }
  let r ← g.find (g.object · = g.stop z e)
  let l ← g.find (g.stop z · = g.object e)
  -- Unlike in the simple list, `e` is in the list before `r` is taken out.
  let g ← g.append e l
  let g ← g.absorb e r
  some (.merged r (l.map fun _ => e), g.extend e l)

def searchDecrementing (s : Nat) : Option (GroupingReport α × LinkedGroupingList α) := do
  let e ← g.find fun e => Grouping.fits z s (g.size e)
  match e with
  | some e =>
    let g := { g with toGrouping := g.shrink e s }
    if g.size e = 0 then
      (g.list.remove e).map fun q => (.taken (some e), { g with list := q })
    else some (.taken (some e), g)
  | none => some (.taken none, g)

end LinkedGroupingList

/-! ## The free ranges -/

/-- The elements in the order in which a search meets them. -/
structure FreeRanges (α : Type*) extends Grouping α where
  list : List α

namespace FreeRanges

variable {α : Type*} [DecidableEq α] (z : GroupingSizes) (g : FreeRanges α)

omit [DecidableEq α] in
/-- The bytes that the ranges cover. -/
def spans : List Span := g.list.map fun e => ⟨g.object e, z.object * g.size e⟩

def construct (e : α) (obj n : Nat) : FreeRanges α :=
  { g with toGrouping := g.toGrouping.construct e obj n }

def insertMerging (e : α) : GroupingReport α × FreeRanges α :=
  let r := g.list.find? (g.object · = g.stop z e)
  let l := g.list.find? (g.stop z · = g.object e)
  let grown := g.grow (g.size e)
  let joined := r.elim grown (grown.add e)
  let rest := r.elim g.list g.list.erase
  (.merged r (l.map fun _ => e),
    { toGrouping := l.elim joined fun l => joined.add l e
      list := l.elim (rest ++ [e]) fun _ => rest })

def searchDecrementing (s : Nat) : GroupingReport α × FreeRanges α :=
  let e := g.list.find? fun e => Grouping.fits z s (g.size e)
  (.taken e,
    e.elim g fun e =>
      let shrunk := g.shrink e s
      { toGrouping := shrunk, list := if shrunk.size e = 0 then g.list.erase e else g.list })

end FreeRanges

/-! ## Runs -/

inductive GroupingAction (α : Type*) where
  /-- `insert_merging` of a new element for the `n` objects from `obj` on. -/
  | insert (e : α) (obj n : Nat)
  | take (s : Nat)
  deriving DecidableEq, Repr

/-- Both lists with what they have reported, the latest first, and the ranges. A list is
    `none` after it has dereferenced a null pointer. -/
structure GroupingRun (α : Type*) where
  simple : Option (SimpleGroupingList α)
  simpleReports : List (Option (GroupingReport α)) := []
  linked : Option (LinkedGroupingList α)
  linkedReports : List (Option (GroupingReport α)) := []
  ranges : FreeRanges α

namespace GroupingRun

variable {α : Type*} [DecidableEq α] (z : GroupingSizes) (r : GroupingRun α)

def callSimple (g : SimpleGroupingList α) :
    GroupingAction α → Option (GroupingReport α × SimpleGroupingList α)
  | .insert e obj n => (g.construct e obj n).insertMerging z e
  | .take s => g.searchDecrementing z s

def callLinked (g : LinkedGroupingList α) :
    GroupingAction α → Option (GroupingReport α × LinkedGroupingList α)
  | .insert e obj n => (g.construct e obj n).insertMerging z e
  | .take s => g.searchDecrementing z s

def callRanges (g : FreeRanges α) : GroupingAction α → GroupingReport α × FreeRanges α
  | .insert e obj n => (g.construct e obj n).insertMerging z e
  | .take s => g.searchDecrementing z s

def step (a : GroupingAction α) : GroupingRun α :=
  let simple := r.simple.bind (callSimple z · a)
  let linked := r.linked.bind (callLinked z · a)
  { simple := simple.map Prod.snd
    simpleReports := simple.map Prod.fst :: r.simpleReports
    linked := linked.map Prod.snd
    linkedReports := linked.map Prod.fst :: r.linkedReports
    ranges := (callRanges z r.ranges a).2 }

/-- An element that is not listed gets a range of objects in memory, apart from those that
    are listed. -/
def CanAct : GroupingAction α → Prop
  | .insert e obj n =>
    e ∉ r.ranges.list ∧ 0 < n ∧ 0 < obj ∧ obj + z.object * n ≤ 2 ^ 32 ∧
      ∀ t ∈ r.ranges.spans z, t.Apart ⟨obj, z.object * n⟩
  | .take s => s < 2 ^ 32

end GroupingRun

/-- Two empty lists of objects of one size, with elements of one size. -/
def groupingSystem (α : Type*) [DecidableEq α] (z : GroupingSizes) :
    TransitionSystem (GroupingRun α) (GroupingAction α) where
  Init r := r.ranges.list = [] ∧ r.ranges.groupedSize = 0 ∧
    r.simpleReports = [] ∧ r.linkedReports = [] ∧
    (∃ next, r.simple = some ⟨r.ranges.toGrouping, ⟨next, {}⟩⟩) ∧
    ∃ links, r.linked = some ⟨r.ranges.toGrouping, ⟨links, {}⟩⟩
  Enabled r a := r.CanAct z a
  next r a := r.step z a

end Epos
