import Mathlib.Data.Finset.Insert
import Mathlib.Data.Finset.Erase
import Epos.Kernel.SimpleHash

/-!
# Calls on a `Simple_Hash`

What `Kernel/SimpleHash.lean` leaves out of `utility/hash.h`: `remove_key`, `size()`, the
iterator, and the search by object, which for the vector is in `utility/vector.h`. Then the
tables that any sequence of calls makes out of an empty one.
-/

namespace Epos

namespace Vector

variable {α : Type*}

/-- `remove(i)`. -/
def removeAt (v : Vector α) (i : Nat) : Option α × Vector α :=
  match v.get i with
  | some e => (some e, { size := v.size - 1, vector := v.vector.set i none })
  | none => (none, v)

/-! ## Search by object -/

variable {β : Type*} [DecidableEq β] (object : α → β) (obj : β)

/-- The loop of `search(obj)` and `remove(obj)` from the slot `i` on, which ends at a slot
    whose element has the object. `none` stands for `_vector[i]->object()` of an empty slot. -/
def findObject : List (Option α) → Nat → Option (Option (Nat × α))
  | [], _ => some none
  | none :: _, _ => none
  | some e :: slots, i =>
    if object e = obj then some (some (i, e)) else findObject slots (i + 1)

/-- `search(obj)`. -/
def search (v : Vector α) : Option (Option α) :=
  (findObject object obj v.vector 0).map (·.map Prod.snd)

/-- `remove(obj)`. -/
def removeObject (v : Vector α) : Option (Option α × Vector α) :=
  (findObject object obj v.vector 0).map fun found =>
    match found with
    | some (i, e) => (some e, { size := v.size - 1, vector := v.vector.set i none })
    | none => (none, v)

end Vector

/-! ## The list of synonyms -/

/-- The loop of `Simple_List::search(obj)`, from `e` on. -/
def searchObjectFrom {α β : Type*} [DecidableEq β] (next : α → Option α) (object : α → β)
    (obj : β) : Nat → Option α → Option (Option α)
  | _, none => some none
  | 0, some _ => none
  | fuel + 1, some e =>
    if object e = obj then some (some e) else searchObjectFrom next object obj fuel (next e)

namespace SimpleOrderedList

variable {α β : Type*} [DecidableEq α]

/-- `search(obj)` of the `Simple_List`. -/
def search [DecidableEq β] (object : α → β) (obj : β) (q : SimpleOrderedList α) :
    Option (Option α) :=
  searchObjectFrom q.next object obj q.findFuel q.header.head

/-- `remove(obj)`. -/
def removeObject [DecidableEq β] (object : α → β) (obj : β) (q : SimpleOrderedList α) :
    Option (Option α × SimpleOrderedList α) := do
  match ← q.search object obj with
  | some e => (q.remove false e).map fun q => (some e, q)
  | none => some (none, q)

/-- `remove_rank(rank)`. -/
def removeRank (q : SimpleOrderedList α) (k : Int) : Option (Option α × SimpleOrderedList α) := do
  match ← q.searchRank k with
  | some e => (q.remove false e).map fun q => (some e, q)
  | none => some (none, q)

end SimpleOrderedList

/-! ## The table -/

/-- `SIZE`. -/
structure TableSize where
  n : Nat
  pos : 0 < n
  /-- The array of pointers is in a memory whose `MEM_TOP` is an `unsigned int`. -/
  fits : 4 * n ≤ 2 ^ 32

namespace SimpleHash

variable {α : Type*}

/-- A new table. The links of the elements may hold anything. -/
def empty (size : TableSize) (next : α → Option α) (key : α → Int) : SimpleHash α where
  vector := .init size.n
  synonyms := { next, header := {}, rank := key }

/-- `size()`. -/
def size (q : SimpleHash α) : Int := q.vector.size + q.synonyms.header.size

section Remove

variable [DecidableEq α]

/-- `remove_key(key)`. -/
def removeKey (q : SimpleHash α) (k : Int) : Option (Option α × SimpleHash α) :=
  let i := q.slot k
  if (q.vector.get i).any (q.key · = k) then
    let (e, vector) := q.vector.removeAt i
    some (e, { q with vector := vector })
  else (q.synonyms.removeRank k).map fun r => (r.1, { q with synonyms := r.2 })

variable {β : Type*} [DecidableEq β] (object : α → β) (obj : β)

/-- `search(obj)`. -/
def search (q : SimpleHash α) : Option (Option α) := do
  match ← q.vector.search object obj with
  | some e => some (some e)
  | none => q.synonyms.search object obj

/-- `remove(obj)`. -/
def removeObject (q : SimpleHash α) : Option (Option α × SimpleHash α) := do
  let (e, vector) ← q.vector.removeObject object obj
  match e with
  | some e => some (some e, { q with vector := vector })
  | none =>
    (q.synonyms.removeObject object obj).map fun r => (r.1, { q with synonyms := r.2 })

end Remove

/-! ### The iterator -/

/-- `Simple_Hash::Forward`. -/
structure Forward (α : Type*) where
  current : Option α := none
  counter : Nat
  deriving DecidableEq, Repr

/-- `END`, which `_counter` has as an `unsigned int`. -/
def END : Nat := 2 ^ 32 - 1

/-- The loop of `operator++` with the slots that are left. -/
def skip (v : Vector α) : Nat → Nat → Nat
  | 0, counter => counter
  | n + 1, counter => if v.get counter = none then skip v n (counter + 1) else counter
  termination_by structural n => n

/-- `operator++`. `none` stands for `_current->next()` without an element. -/
def Forward.succ (q : SimpleHash α) (it : Forward α) : Option (Forward α) := do
  let SIZE := q.vector.vector.length
  let counter := skip q.vector (SIZE - it.counter) it.counter
  -- `_counter` is one ahead of the slot of `_current`, and more than `SIZE` in the list.
  let (current, counter) ←
    if counter < SIZE then some (q.vector.get counter, (counter + 1) % 2 ^ 32)
    else if counter = SIZE then some (q.synonyms.header.head, (counter + 1) % 2 ^ 32)
    else do
      let e ← it.current
      some (q.synonyms.next e, counter)
  some { current, counter := if current.isNone then END else counter }

def begin (q : SimpleHash α) : Option (Forward α) := Forward.succ q { counter := 0 }

/-- The elements at `it` and behind, which a loop up to `end()` visits. `none` stands for
    more steps than the fuel, or for an iterator without an element. -/
def visitFrom (q : SimpleHash α) : Nat → Forward α → Option (List α)
  | 0, _ => none
  | fuel + 1, it =>
    if it.counter = END then some []
    else do
      let e ← it.current
      let it ← it.succ q
      let es ← visitFrom q fuel it
      some (e :: es)

/-- `for(it = begin(); it != end(); it++)`. -/
def visit (q : SimpleHash α) (fuel : Nat) : Option (List α) := q.begin.bind (q.visitFrom fuel)

end SimpleHash

/-! ## Sequences of calls -/

inductive HashCall (α : Type*)
  | insert (e : α)
  | remove (e : α)
  | removeKey (k : Int)
  | searchKey (k : Int)
  deriving DecidableEq, Repr

namespace HashCall

variable {α : Type*} [DecidableEq α]

/-- The returned element and the table afterwards. -/
def exec (q : SimpleHash α) : HashCall α → Option (Option α × SimpleHash α)
  | insert e => (q.insert e).map fun q => (none, q)
  | remove e => (q.remove e).map fun q => (some e, q)
  | removeKey k => q.removeKey k
  | searchKey k => (q.searchKey k).map fun e => (e, q)

/-! ### What the calls mean -/

/-- A stored element, whose link is in use, is not inserted, and `remove(e)` gets a member. -/
def Allowed (stored : Finset α) : HashCall α → Prop
  | insert e => e ∉ stored
  | remove e => e ∈ stored
  | _ => True

instance (stored : Finset α) : (c : HashCall α) → Decidable (c.Allowed stored)
  | insert e => inferInstanceAs (Decidable (e ∉ stored))
  | remove e => inferInstanceAs (Decidable (e ∈ stored))
  | removeKey _ => isTrue trivial
  | searchKey _ => isTrue trivial

/-- An element with the key, or none if there is none. -/
def Finds (key : α → Int) (stored : Finset α) (k : Int) : Option α → Prop
  | some e => e ∈ stored ∧ key e = k
  | none => ∀ e ∈ stored, key e ≠ k

/-- The call may return this. -/
def Answers (key : α → Int) (stored : Finset α) (r : Option α) : HashCall α → Prop
  | insert _ => r = none
  | remove e => r = some e
  | removeKey k => Finds key stored k r
  | searchKey k => Finds key stored k r

/-- The stored elements after a call that returned `r`. -/
def result (stored : Finset α) (r : Option α) : HashCall α → Finset α
  | insert e => Insert.insert e stored
  | remove e => stored.erase e
  | removeKey _ => r.elim stored stored.erase
  | searchKey _ => stored

end HashCall

/-- The tables after any sequence of calls on an empty one, each with the elements that were
    inserted and not removed since. -/
inductive SimpleHash.Reached {α : Type*} [DecidableEq α] (size : TableSize)
    (next : α → Option α) (key : α → Int) : SimpleHash α → Finset α → Prop
  | empty : Reached size next key (SimpleHash.empty size next key) ∅
  | call {q q' : SimpleHash α} {stored : Finset α} {c : HashCall α} {r : Option α} :
      Reached size next key q stored → c.Allowed stored → c.exec q = some (r, q') →
        Reached size next key q' (c.result stored r)

end Epos
