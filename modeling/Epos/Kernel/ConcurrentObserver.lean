import Epos.Kernel.Observer

/-!
# `Concurrent_Observed` and `Concurrent_Observer`

An observer has a list of data and a semaphore with a unit for each of them. The lists go
through `lext()` of the data, and a datum has one such link. Only the semaphore is locked:
`_list.insert()` and `_list.remove()` are modelled access by access to the memory they share.
There are fewer data and threads than the counters can hold.
-/

namespace Epos

/-! ## The list operations, one access at a time -/

/-- Where a call of `Simple_List::insert_tail(e)` is. -/
inductive InsertPoint (δ : Type*) where
  /-- At `empty()`. -/
  | empty
  /-- At `e->next(0)` of `insert_first(e)`. -/
  | firstNext
  /-- At `_head = e`. -/
  | firstHead
  /-- In front of `_tail->next(e)`, where `_tail` is read. -/
  | tail
  | tailNext (tail : Option δ)
  /-- At `e->next(0)` behind it. -/
  | next
  /-- At `_tail = e`, from where on both branches do the same. -/
  | setTail
  /-- At `_size++`. -/
  | size
  | setSize (size : Int)
  /-- The call has returned, and `_semaphore.v()` comes next. -/
  | v
  deriving DecidableEq, Repr

/-- Where a call of `Simple_List::remove_head()` is, behind `empty()`. -/
inductive RemovePoint (δ : Type*) where
  /-- At `last()`. -/
  | last
  /-- At `Element * e = _head` of `remove_last()`. -/
  | lastHead
  /-- At `_head = 0`. -/
  | clearHead (e : Option δ)
  /-- At `_tail = 0`. -/
  | clearTail (e : Option δ)
  /-- At `Element * e = _head` of `remove_head()`. -/
  | head
  /-- In front of `_head = _head->next()`, where `_head` is read. -/
  | next (e : Option δ)
  | link (e head : Option δ)
  | setHead (e next : Option δ)
  /-- At `_size--`, from where on both branches do the same. -/
  | size (e : Option δ)
  | setSize (e : Option δ) (size : Int)
  deriving DecidableEq, Repr

namespace InsertPoint

variable {δ : Type*} [DecidableEq δ]

/-- The next access of `insert_tail(d)`, or nothing if it follows a null pointer. -/
def step (d : δ) (q : SimpleList δ) : InsertPoint δ → Option (InsertPoint δ × SimpleList δ)
  -- `insert_first()` for the empty list
  | empty => some (if q.empty then firstNext else tail, q)
  | firstNext => some (firstHead, { q with next := Function.update q.next d none })
  | firstHead => some (setTail, { q with header := { q.header with head := some d } })
  | tail => some (tailNext q.header.tail, q)
  -- `_tail->next(e)` with a null tail
  | tailNext none => none
  | tailNext (some x) => some (next, { q with next := Function.update q.next x (some d) })
  | next => some (setTail, { q with next := Function.update q.next d none })
  | setTail => some (size, { q with header := { q.header with tail := some d } })
  | size => some (setSize q.header.size, q)
  | setSize n => some (v, { q with header := { q.header with size := n + 1 } })
  | v => some (v, q)

end InsertPoint

namespace RemovePoint

variable {δ : Type*}

/-- The next access of `remove_head()`, or nothing if it follows a null pointer. The last one
    gives the element that is returned. -/
def step (next : δ → Option δ) (h : ListHeader δ) :
    RemovePoint δ → Option ((RemovePoint δ ⊕ Option δ) × ListHeader δ)
  -- `remove_last()` for a list of one element, which clears both ends
  | last => some (.inl (if (SimpleList.mk next h).last then lastHead else head), h)
  | lastHead => some (.inl (clearHead h.head), h)
  | clearHead e => some (.inl (clearTail e), { h with head := none })
  | clearTail e => some (.inl (size e), { h with tail := none })
  | head => some (.inl (.next h.head), h)
  | .next e => some (.inl (link e h.head), h)
  -- `_head->next()` with a null head
  | link _ none => none
  | link e (some x) => some (.inl (setHead e (next x)), h)
  | setHead e x => some (.inl (size e), { h with head := x })
  | size e => some (.inl (setSize e h.size), h)
  | setSize e n => some (.inr e, { h with size := n - 1 })

end RemovePoint

/-! ## Observers -/

/-- The list and the semaphore, the threads that sleep in `p()`, those that have passed it
    and not called `_list.remove()` yet, and those that are in that call. -/
structure ConcurrentObserver (δ : Type*) where
  list : ListHeader δ := {}
  value : Int := 0
  sleeping : Nat := 0
  passed : Nat := 0
  removing : List (RemovePoint δ) := []
  deriving DecidableEq

namespace ConcurrentObserver

variable {δ : Type*} (o : ConcurrentObserver δ)

/-- `_semaphore.p()`. -/
def p : ConcurrentObserver δ :=
  if o.value < 1 then { o with value := o.value - 1, sleeping := o.sleeping + 1 }
  else { o with value := o.value - 1, passed := o.passed + 1 }

/-- `_semaphore.v()`. -/
def v : ConcurrentObserver δ :=
  if o.value < 0 ∧ 0 < o.sleeping then
    { o with value := o.value + 1, sleeping := o.sleeping - 1, passed := o.passed + 1 }
  else { o with value := o.value + 1 }

end ConcurrentObserver

/-- What is behind `failed` followed a null pointer. The last fields are what has been
    called and returned. -/
structure ConcurrentObserved (α δ : Type*) where
  observation : Observation α
  next : δ → Option δ
  observer : α → ConcurrentObserver δ
  /-- The observers whose `update(c, d)` in the loop of `notify(c, d)` has not returned yet.
      The loop has ended when there are none. -/
  left : δ → List α
  /-- Where the first of these updates is. -/
  point : δ → InsertPoint δ
  failed : Bool := false
  notified : List (Int × δ) := []
  /-- The data notified under the condition that the observer was attached for. -/
  expected : α → List δ
  requested : α → Nat
  returned : α → List δ

inductive ConcurrentAction (α δ : Type*) where
  | attach (o : α) (c : Int)
  | detach (o : α) (c : Int)
  /-- `notify(c, d)` up to the first observer. -/
  | notify (c : Int) (d : δ)
  /-- The next access of the `update(c, d)` that `notify(c, d)` is in. -/
  | update (d : δ)
  /-- `updated()` as far as the semaphore. -/
  | request (o : α)
  /-- `_list.remove()` of a call of `updated()`, up to `empty()`. -/
  | remove (o : α)
  /-- The next access of one of the calls in `_list.remove()`. -/
  | finish (o : α) (i : Nat)
  deriving DecidableEq, Repr

namespace ConcurrentObserved

variable {α δ : Type*} [DecidableEq α] [DecidableEq δ] (s : ConcurrentObserved α δ)

def notify (c : Int) (d : δ) : ConcurrentObserved α δ :=
  match s.observation.observers.bind (ObservedClass.conditional.notify · c) with
  | some l =>
    { s with
      left := Function.update s.left d l
      notified := s.notified ++ [(c, d)]
      expected := fun o =>
        if (o, c) ∈ s.observation.attached then s.expected o ++ [d] else s.expected o }
  | none => { s with failed := true }

/-- `_semaphore.v()` of `update(c, d)`, with which the loop of `notify(c, d)` goes on to the next
    observer. -/
def signal (d : δ) (o : α) (left : List α) : ConcurrentObserved α δ :=
  { s with
    observer := Function.update s.observer o (s.observer o).v
    left := Function.update s.left d left
    point := Function.update s.point d .empty }

/-- `e->object()->update(c, d)`. -/
def update (d : δ) : ConcurrentObserved α δ :=
  match s.left d with
  | [] => s
  -- the list is not locked, so each call is one access
  | o :: left =>
    if s.point d = .v then s.signal d o left
    else
      match (s.point d).step d ⟨s.next, (s.observer o).list⟩ with
      | some (p, q) =>
        { s with
          next := q.next
          observer := Function.update s.observer o { s.observer o with list := q.header }
          point := Function.update s.point d p }
      | none => { s with failed := true }

def request (o : α) : ConcurrentObserved α δ :=
  { s with
    observer := Function.update s.observer o (s.observer o).p
    requested := Function.update s.requested o (s.requested o + 1) }

/-- `_list.remove()->object()` follows a null pointer if the list is empty. -/
def remove (o : α) : ConcurrentObserved α δ :=
  if (SimpleList.mk s.next (s.observer o).list).empty then { s with failed := true }
  else
    { s with
      observer := Function.update s.observer o
        { s.observer o with
          passed := (s.observer o).passed - 1
          removing := (s.observer o).removing ++ [.last] } }

/-- `return _list.remove()->object();`. -/
def finish (o : α) (i : Nat) : ConcurrentObserved α δ :=
  match (s.observer o).removing[i]? with
  | none => s
  | some r =>
    match r.step s.next (s.observer o).list with
    -- the next access of the removal
    | some (.inl r', h) =>
      { s with
        observer := Function.update s.observer o
          { s.observer o with list := h, removing := (s.observer o).removing.set i r' } }
    -- the removal ends, and the caller gets the data of the element
    | some (.inr (some d), h) =>
      { s with
        observer := Function.update s.observer o
          { s.observer o with list := h, removing := (s.observer o).removing.eraseIdx i }
        returned := Function.update s.returned o (s.returned o ++ [d]) }
    | _ => { s with failed := true }

def step : ConcurrentAction α δ → ConcurrentObserved α δ
  | .attach o c => { s with observation := s.observation.step .conditional (.attach o c) }
  | .detach o c => { s with observation := s.observation.step .conditional (.detach o c) }
  | .notify c d => s.notify c d
  | .update d => s.update d
  | .request o => s.request o
  | .remove o => s.remove o
  | .finish o i => s.finish o i

/-- Observers that are not attached are attached and those that are are detached, between
    notifications. No datum is notified twice. -/
def CanAct : ConcurrentAction α δ → Prop
  | .attach o _ => (∀ n ∈ s.notified, s.left n.2 = []) ∧ o ∉ s.observation.attached.map Prod.fst
  | .detach o c => (∀ n ∈ s.notified, s.left n.2 = []) ∧ (o, c) ∈ s.observation.attached
  | .notify _ d => d ∉ s.notified.map Prod.snd
  | .update d => s.left d ≠ []
  | .request _ => True
  | .remove o => 0 < (s.observer o).passed
  | .finish o i => i < (s.observer o).removing.length

end ConcurrentObserved

/-- An observed object without observers, any observers and any data. -/
def concurrentObservation (α δ : Type*) [DecidableEq α] [DecidableEq δ] :
    TransitionSystem (ConcurrentObserved α δ) (ConcurrentAction α δ) where
  Init s := (observation α .conditional).Init s.observation ∧ (∀ o, s.observer o = {}) ∧
    (∀ d, s.left d = [] ∧ s.point d = .empty) ∧ s.failed = false ∧ s.notified = [] ∧
    ∀ o, s.expected o = [] ∧ s.requested o = 0 ∧ s.returned o = []
  Enabled s a := s.CanAct a
  next s a := s.step a

end Epos
