import Mathlib.Algebra.Group.Int.Defs
import Epos.Kernel.SimpleList

/-!
# `Simple_Hash`

`utility/hash.h` with what it takes from `utility/vector.h`: one element for each
remainder of the keys stands in a vector, and the others in an ordered list of synonyms.
The `key()` of an element is its rank.
-/

namespace Epos

/-- `Vector<T, N_ELEMENTS, Element>`, where a slot is null or points to an element. -/
structure Vector (α : Type*) where
  size : Int := 0
  vector : List (Option α)

namespace Vector

variable {α : Type*}

def init (n : Nat) : Vector α := { vector := List.replicate n none }

/-- `v[i]`. -/
def get (v : Vector α) (i : Nat) : Option α := v.vector[i]?.join

/-- `insert(e, i)`. -/
def insert (v : Vector α) (e : α) (i : Nat) : Bool × Vector α :=
  match v.get i with
  | some _ => (false, v)
  | none => (true, { size := v.size + 1, vector := v.vector.set i (some e) })

/-- `remove(e)`, `none` if no slot points to `e`. -/
def remove [DecidableEq α] (v : Vector α) (e : α) : Option (Vector α) :=
  (v.vector.findIdx? (· = some e)).map fun i =>
    { size := v.size - 1, vector := v.vector.set i none }

end Vector

/-! ## The synonyms -/

/-- The loop of `search_rank(rank)`, from `e` on. -/
def searchFrom {α : Type*} (next : α → Option α) (rank : α → Int) (k : Int) :
    Nat → Option α → Option (Option α)
  | _, none => some none
  | 0, some _ => none
  | fuel + 1, some e =>
    if rank e = k then some (some e) else searchFrom next rank k fuel (next e)

def SimpleOrderedList.searchRank {α : Type*} (q : SimpleOrderedList α) (k : Int) :
    Option (Option α) :=
  searchFrom q.next q.rank k q.findFuel q.header.head

/-! ## The table -/

structure SimpleHash (α : Type*) where
  vector : Vector α
  synonyms : SimpleOrderedList α

namespace SimpleHash

variable {α : Type*}

def key (q : SimpleHash α) (e : α) : Int := q.synonyms.rank e

/-- `key % SIZE`. A negative key becomes an `unsigned int`. -/
def slot (q : SimpleHash α) (k : Int) : Nat := (k % 2 ^ 32).toNat % q.vector.vector.length

/-- `search_key(key)`. -/
def searchKey (q : SimpleHash α) (k : Int) : Option (Option α) :=
  match q.vector.get (q.slot k) with
  | some e => if q.key e = k then some (some e) else q.synonyms.searchRank k
  | none => q.synonyms.searchRank k

variable [DecidableEq α]

/-- `_link(this, key)` in the constructor of an object. -/
def construct (q : SimpleHash α) (e : α) (k : Int) : SimpleHash α :=
  { q with
    synonyms :=
      { q.synonyms with
        next := Function.update q.synonyms.next e none
        rank := Function.update q.synonyms.rank e k } }

def insert (q : SimpleHash α) (e : α) : Option (SimpleHash α) :=
  let (done, vector) := q.vector.insert e (q.slot (q.key e))
  if done then some { q with vector := vector }
  else (q.synonyms.insert false e).map fun l => { q with synonyms := l }

/-- `remove(e)`. -/
def remove (q : SimpleHash α) (e : α) : Option (SimpleHash α) :=
  match q.vector.remove e with
  | some vector => some { q with vector := vector }
  | none => (q.synonyms.remove false e).map fun l => { q with synonyms := l }

end SimpleHash

end Epos
