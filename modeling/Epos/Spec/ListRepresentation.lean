import Epos.Kernel.ListCalls
import Epos.Spec.LinkedListCorrect

/-!
# Any sequence of calls on a list

`Represents` survives every call, so that after any sequence of calls the chains of
`next` and `prev` fields are the sequence of elements that the calls are meant to make,
in both directions. The links of elements outside the list are never read.
-/

namespace Epos

namespace LinkedList

variable {α β : Type*} {q q' : LinkedList α} {l : List α}

/-- Following the links from `first` visits exactly these elements. -/
def Visits (next : α → Option α) (first : Option α) (l : List α) : Prop :=
  first = l.head? ∧ l.Chained next none

/-- The header and the links of a list of these elements. -/
structure WellLinked (q : LinkedList α) (l : List α) : Prop where
  size : q.header.size = l.length
  forward : Visits q.links.next q.header.head l
  backward : Visits q.links.prev q.header.tail l.reverse
  head_prev : ∀ x, q.header.head = some x → q.links.prev x = none
  tail_next : ∀ x, q.header.tail = some x → q.links.next x = none

theorem Represents.wellLinked (h : q.Represents l) : q.WellLinked l := by
  have hback : l.reverse.Chained q.links.prev none := h.linked.chained_reverse
  have htail : q.header.tail = l.reverse.head? := by rw [List.head?_reverse, h.tail]
  constructor
  · exact h.size
  · exact ⟨h.head, h.linked.chained⟩
  · exact ⟨htail, hback⟩
  · intro x hx
    obtain ⟨xs, rfl⟩ := List.head?_eq_some_iff.mp (h.head.symm.trans hx)
    exact h.linked.1
  · intro x hx
    obtain ⟨xs, rfl⟩ := List.getLast?_eq_some_iff.mp (h.tail.symm.trans hx)
    exact (Links.linked_append.mp h.linked).2.2.1

/-- An empty list, whatever the links of the elements hold. -/
theorem Represents.of_empty (h : q.header = {}) : q.Represents [] := by
  constructor
  · rw [h]
    rfl
  · rw [h]
    rfl
  · rw [h]
    rfl
  · trivial

variable [DecidableEq α]

/-- The found element is removed, if there is one. -/
theorem Represents.removeFound (h : q.Represents l) (p : α → Bool) :
    ∃ q', q.removeFound (l.find? p) = some (l.find? p, q') ∧
      q'.Represents ((l.find? p).elim l l.erase) := by
  cases hfind : l.find? p with
  | none => exact ⟨q, rfl, h⟩
  | some e =>
    obtain ⟨q', heq, hmoves⟩ := h.remove (List.mem_of_find?_eq_some hfind)
    refine ⟨q', ?_, hmoves.represents⟩
    show (q.remove e).map _ = _
    rw [heq]
    rfl

theorem Represents.removeObject [DecidableEq β] (object : α → β) (obj : β) (h : q.Represents l) :
    ∃ q', q.removeObject object obj = some (l.find? (object · = obj), q') ∧
      q'.Represents ((l.find? (object · = obj)).elim l l.erase) := by
  obtain ⟨q', heq, hrep⟩ := h.removeFound (object · = obj)
  refine ⟨q', ?_, hrep⟩
  unfold LinkedList.removeObject LinkedList.search
  rw [h.head, findFrom_eq h.linked.chained h.length_le_scanFuel]
  exact heq

theorem Represents.removeRank (rank : α → Int) (r : Int) (h : q.Represents l) :
    ∃ q', q.removeRank rank r = some (l.find? (rank · = r), q') ∧
      q'.Represents ((l.find? (rank · = r)).elim l l.erase) := by
  obtain ⟨q', heq, hrep⟩ := h.removeFound (rank · = r)
  refine ⟨q', ?_, hrep⟩
  unfold LinkedList.removeRank LinkedList.searchRank
  rw [h.head, findFrom_eq h.linked.chained h.length_le_scanFuel]
  exact heq

end LinkedList

namespace ListCall

variable {α β : Type*} [DecidableEq α] [DecidableEq β] {rank : α → Int} {object : α → β}
  {q : LinkedList α} {l members : List α} {c : ListCall α β} {cs : List (ListCall α β)}

theorem erase_getLast {e : α} (h : (l ++ [e]).Nodup) : (l ++ [e]).erase e = l := by
  have he : e ∉ l := fun hmem => List.disjoint_of_nodup_append h hmem List.mem_cons_self
  rw [List.erase_append_right _ he, List.erase_cons_head, List.append_nil]

/-- A call does to the memory what it means for the elements. -/
theorem exec_correct (h : q.Represents l) (ha : c.Allowed l) :
    ∃ q', c.exec rank object q = some (c.removed rank object l, q') ∧
      q'.Represents (c.result rank object l) := by
  -- one case for each operation, by what it does to the links
  cases c with
  | insertHead e =>
    obtain ⟨q', heq, hmoves⟩ := h.insertHead ha
    exact ⟨q', by simp [exec, heq, removed], hmoves.represents⟩
  | insertTail e =>
    obtain ⟨q', heq, hmoves⟩ := h.insertTail ha
    exact ⟨q', by simp [exec, heq, removed], hmoves.represents⟩
  | insert e =>
    obtain ⟨q', heq, hmoves⟩ := h.orderedInsert rank ha
    exact ⟨q', by simp [exec, heq, removed], hmoves.represents⟩
  | removeHead =>
    obtain ⟨q', heq, hmoves⟩ := h.removeHead
    refine ⟨q', heq, ?_⟩
    cases l with
    | nil => exact hmoves.represents
    | cons x xs =>
      show q'.Represents ((x :: xs).erase x)
      rw [List.erase_cons_head]
      exact hmoves.represents
  | removeTail =>
    -- the tail of the list is what is removed
    cases hl : l.getLast? with
    | none =>
      obtain rfl := List.getLast?_eq_none_iff.mp hl
      have hempty : q.empty = true := h.empty_eq
      refine ⟨q, ?_, h⟩
      unfold exec LinkedList.removeTail
      rw [if_pos hempty]
      rfl
    | some e =>
      obtain ⟨xs, rfl⟩ := List.getLast?_eq_some_iff.mp hl
      obtain ⟨q', heq, hmoves⟩ := h.removeTail
      refine ⟨q', ?_, ?_⟩
      · unfold removed
        rw [hl]
        exact heq
      · show q'.Represents ((xs ++ [e]).getLast?.elim (xs ++ [e]) (xs ++ [e]).erase)
        rw [hl, Option.elim_some, erase_getLast h.nodup]
        exact hmoves.represents
  | remove e =>
    obtain ⟨q', heq, hmoves⟩ := h.remove ha
    exact ⟨q', by simp [exec, heq, removed], hmoves.represents⟩
  | removeObject obj => exact h.removeObject object obj
  | removeRank r => exact h.removeRank rank r

theorem execAll_correct (h : q.Represents l) (ha : AllAllowed rank object l cs) :
    ∃ q', execAll rank object q cs = some (removedAll rank object l cs, q') ∧
      q'.Represents (resultAll rank object l cs) := by
  induction cs generalizing q l with
  | nil => exact ⟨q, rfl, h⟩
  | cons c cs ih =>
    obtain ⟨q₁, heq₁, h₁⟩ := exec_correct h ha.1
    obtain ⟨q₂, heq₂, h₂⟩ := ih h₁ ha.2
    refine ⟨q₂, ?_, h₂⟩
    unfold execAll
    simp only [heq₁, heq₂, Option.bind_eq_bind, Option.bind_some]
    rfl

/-! ## First come, first served -/

/-- An ordered call keeps the sequence sorted, with equal ranks by arrival. -/
theorem stableSortOf_result (h : List.StableSortOf rank members l) (ha : c.Allowed l)
    (ho : c.Ordered) :
    List.StableSortOf rank (c.arrivals rank object l members) (c.result rank object l) := by
  have herase (x : Option α) :
      List.StableSortOf rank (x.elim members members.erase) (x.elim l l.erase) := by
    cases x with
    | none => exact h
    | some e => exact h.erase e
  cases c with
  | insertHead e => exact ho.elim
  | insertTail e => exact ho.elim
  | insert e =>
    have he : e ∉ members := fun hmem => ha ((h.mem_iff e).mpr hmem)
    exact h.insert he fun _ _ => rfl
  | removeHead => exact herase _
  | removeTail => exact herase _
  | remove e => exact herase (some e)
  | removeObject obj => exact herase _
  | removeRank r => exact herase _

theorem stableSortOf_resultAll (h : List.StableSortOf rank members l)
    (ha : AllAllowed rank object l cs) (ho : ∀ c ∈ cs, c.Ordered) :
    List.StableSortOf rank (arrivalsAll rank object l members cs)
      (resultAll rank object l cs) := by
  induction cs generalizing l members with
  | nil => exact h
  | cons c cs ih =>
    obtain ⟨hc, hcs⟩ := List.forall_mem_cons.mp ho
    exact ih (stableSortOf_result h ha.1 hc) ha.2 hcs

/-- After any sequence of calls on a list that was empty, whatever the links of the
    elements held: what the calls returned, the two chains, and the order in which an
    ordered list has its elements. -/
theorem list_representation (cs : List (ListCall α β)) (hempty : q.header = {})
    (ha : AllAllowed rank object [] cs) :
    ∃ q', execAll rank object q cs = some (removedAll rank object [] cs, q') ∧
      q'.WellLinked (resultAll rank object [] cs) ∧
      ((∀ c ∈ cs, c.Ordered) → List.StableSortOf rank (arrivalsAll rank object [] [] cs)
        (resultAll rank object [] cs)) := by
  obtain ⟨q', heq, hrep⟩ := execAll_correct (.of_empty hempty) ha
  exact ⟨q', heq, hrep.wellLinked, stableSortOf_resultAll (.nil rank) ha⟩

/-- `2` and `3` have one rank, `4` and `5` another. The links are stale: every element
    claims to be between `7` and `8`. -/
theorem list_representation_example :
    ∃ q', execAll (fun e : Nat => (e : Int) / 2) (fun e => e + 10)
        { links := ⟨fun _ => some 7, fun _ => some 8⟩, header := {} }
        [insert 2, insert 1, insert 4, insert 3, insert 5, removeObject 15, removeTail, remove 2,
          removeRank 5, insert 2, removeHead] =
          some ([none, none, none, none, none, some 5, some 4, some 2, none, none, some 1], q') ∧
      q'.WellLinked [3, 2] := by
  have hempty : (⟨⟨fun _ => some 7, fun _ => some 8⟩, {}⟩ : LinkedList Nat).header = {} := rfl
  have hallowed : AllAllowed (fun e : Nat => (e : Int) / 2) (fun e => e + 10) []
      [insert 2, insert 1, insert 4, insert 3, insert 5, removeObject 15, removeTail, remove 2,
        removeRank 5, insert 2, removeHead] := by decide
  obtain ⟨q', heq, hlinked, -⟩ := list_representation _ hempty hallowed
  exact ⟨q', heq, hlinked⟩

end ListCall

end Epos
