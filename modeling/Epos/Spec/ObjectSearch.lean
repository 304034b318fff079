import Epos.Spec.HashMultimap

/-!
# Search by object

`search(obj)` and `remove(obj)` look at the object of every slot up to the one that they
are after, and do not ask whether the slot is in use. They are right on a vector, and on
the vector of a hash table, exactly if an element with the object is in front of every
empty slot.
-/

namespace Epos

namespace Vector

variable {α β : Type*} {object : α → β} {obj : β} {v : Vector α} {slots : List (Option α)}
  {e : α} {i : Nat}

/-- An element with the object is in front of every empty slot. -/
def Guarded (object : α → β) (obj : β) (slots : List (Option α)) : Prop :=
  ∀ i : Nat, slots[i]? = some none → ∃ j < i, ∃ e, slots[j]? = some (some e) ∧ object e = obj

/-- An empty slot in front guards nothing. -/
theorem not_guarded_none_cons : ¬ Guarded object obj (none :: slots) := by
  intro h
  obtain ⟨j, hj, -⟩ := h 0 rfl
  exact Nat.not_lt_zero j hj

/-- An element guards what is behind it only if it has the object. -/
theorem guarded_some_cons :
    Guarded object obj (some e :: slots) ↔ object e = obj ∨ Guarded object obj slots := by
  constructor
  · intro h
    -- the object is in this slot, so the empty slots behind it are not reached
    by_cases he : object e = obj
    · exact .inl he
    · refine .inr fun i hi => ?_
      obtain ⟨j, hj, x, hx, hobj⟩ := h (i + 1) (by rwa [List.getElem?_cons_succ])
      cases j with
      | zero =>
        cases hx
        exact absurd hobj he
      | succ j =>
        rw [List.getElem?_cons_succ] at hx
        exact ⟨j, Nat.lt_of_succ_lt_succ hj, x, hx, hobj⟩
  · intro h i hi
    cases i with
    | zero => cases hi
    | succ i =>
      rw [List.getElem?_cons_succ] at hi
      cases h with
      | inl he => exact ⟨0, Nat.zero_lt_succ i, e, rfl, he⟩
      | inr h =>
        obtain ⟨j, hj, x, hx, hobj⟩ := h i hi
        exact ⟨j + 1, Nat.succ_lt_succ hj, x, by rwa [List.getElem?_cons_succ], hobj⟩

/-- Where every slot is in use, there is nothing to fall over. -/
theorem guarded_of_full (h : none ∉ slots) : Guarded object obj slots :=
  fun _ hi => absurd (List.mem_of_getElem? hi) h

variable [DecidableEq β]

/-- A search that returns was guarded. -/
theorem guarded_of_findObject {r : Option (Nat × α)}
    (h : findObject object obj slots i = some r) : Guarded object obj slots := by
  induction slots generalizing i with
  | nil => exact guarded_of_full List.not_mem_nil
  | cons x xs ih =>
    cases x with
    | none => cases h
    | some e =>
      unfold findObject at h
      rw [guarded_some_cons]
      by_cases he : object e = obj
      · exact .inl he
      · rw [if_neg he] at h
        exact .inr (ih h)

/-- What the loop finds: the slot of an element with the object, or that there is none. -/
theorem Guarded.findObject (h : Guarded object obj slots) (i : Nat) :
    (∃ j e, findObject object obj slots i = some (some (i + j, e)) ∧
      slots[j]? = some (some e) ∧ object e = obj) ∨
    (findObject object obj slots i = some none ∧ ∀ e, some e ∈ slots → object e ≠ obj) := by
  -- induction on the slots still ahead of the search
  induction slots generalizing i with
  | nil => exact .inr ⟨rfl, fun e he => absurd he List.not_mem_nil⟩
  | cons x xs ih =>
    cases x with
    | none => exact absurd h not_guarded_none_cons
    | some e =>
      unfold Vector.findObject
      by_cases he : object e = obj
      · exact .inl ⟨0, e, if_pos he, rfl, he⟩
      · rw [if_neg he]
        cases ih ((guarded_some_cons.mp h).resolve_left he) (i + 1) with
        | inl hfound =>
          obtain ⟨j, x, heq, hx, hobj⟩ := hfound
          refine .inl ⟨j + 1, x, ?_, by rwa [List.getElem?_cons_succ], hobj⟩
          rw [heq, Nat.add_assoc, Nat.add_comm 1 j]
        | inr hnone =>
          refine .inr ⟨hnone.1, fun x hx => ?_⟩
          cases List.mem_cons.mp hx with
          | inl hx =>
            cases hx
            exact he
          | inr hx => exact hnone.2 x hx

/-- `search(obj)` and `remove(obj)` dereference no empty slot, give an element with the
    object if there is one, and only its slot is emptied. -/
def SearchesObject (object : α → β) (obj : β) (v : Vector α) : Prop :=
  ∃ r v', v.search object obj = some r ∧ v.removeObject object obj = some (r, v') ∧
    match r with
    | some e => object e = obj ∧ ∃ i, v.vector[i]? = some (some e) ∧
        v' = { size := v.size - 1, vector := v.vector.set i none }
    | none => v' = v ∧ ∀ e, some e ∈ v.vector → object e ≠ obj

/-- The vector is searched properly exactly if it was guarded. -/
theorem searchesObject_iff (v : Vector α) :
    v.SearchesObject object obj ↔ Guarded object obj v.vector := by
  constructor
  · rintro ⟨r, v', hsearch, -⟩
    obtain ⟨found, hfind, -⟩ := Option.map_eq_some_iff.mp hsearch
    exact guarded_of_findObject hfind
  · intro h
    unfold SearchesObject Vector.search removeObject
    cases h.findObject 0 with
    | inl hfound =>
      obtain ⟨j, e, heq, hj, hobj⟩ := hfound
      rw [Nat.zero_add] at heq
      rw [heq]
      exact ⟨some e, _, rfl, rfl, hobj, j, hj, rfl⟩
    | inr hnone =>
      rw [hnone.1]
      exact ⟨none, _, rfl, rfl, rfl, hnone.2⟩

end Vector

/-! ## The hash table -/

/-- The search along the links finds what the search in the list finds. -/
theorem searchObjectFrom_eq {α β : Type*} [DecidableEq β] {next : α → Option α} (object : α → β)
    (obj : β) {l : List α} {fuel : Nat} (h : l.Chained next none) (hfuel : l.length ≤ fuel) :
    searchObjectFrom next object obj fuel l.head? = some (l.find? (object · = obj)) := by
  induction l generalizing fuel with
  | nil => simp [searchObjectFrom]
  | cons x xs ih =>
    obtain ⟨n, rfl⟩ := Nat.exists_eq_succ_of_ne_zero (Nat.ne_of_gt (Nat.zero_lt_of_lt hfuel))
    have hnext : next x = xs.head? := by rw [h.1, Option.or_none]
    rw [List.head?_cons, searchObjectFrom, hnext, ih h.2 (Nat.le_of_succ_le_succ hfuel)]
    by_cases hx : object x = obj
    · rw [if_pos hx, List.find?_cons_of_pos (by simpa using hx)]
    · rw [if_neg hx, List.find?_cons_of_neg (by simpa using hx)]

/-- `search()` of the list finds the first element with the object. -/
theorem SimpleOrderedList.search_eq {α β : Type*} [DecidableEq α] [DecidableEq β]
    {q : SimpleOrderedList α} {l : List α} (h : q.Represents l) (object : α → β) (obj : β) :
    q.search object obj = some (l.find? (object · = obj)) := by
  have hhead : q.header.head = l.head? := h.head
  unfold SimpleOrderedList.search
  rw [hhead]
  exact searchObjectFrom_eq object obj h.chained h.length_le_findFuel

namespace SimpleHash

variable {α β : Type*} [DecidableEq α] [DecidableEq β] {object : α → β} {obj : β}
  {q : SimpleHash α} {l s : List α} {e : α} {size : TableSize} {next : α → Option α}
  {key : α → Int} {stored : Finset α}

/-- `search(obj)` and `remove(obj)` dereference no empty slot, give an element with the
    object if one is stored, and exactly that one is removed. -/
def SearchesObject (size : TableSize) (next : α → Option α) (key : α → Int) (object : α → β)
    (obj : β) (q : SimpleHash α) (stored : Finset α) : Prop :=
  ∃ r q', q.search object obj = some r ∧ q.removeObject object obj = some (r, q') ∧
    match r with
    | some e => e ∈ stored ∧ object e = obj ∧ Reached size next key q' (stored.erase e)
    | none => q' = q ∧ ∀ e ∈ stored, object e ≠ obj

/-- Removing by object among the synonyms. -/
theorem Parts.synonyms_removeObject (h : q.Parts l s) :
    (q.synonyms.removeObject object obj).map (fun r => (r.1, { q with synonyms := r.2 })) =
      q.removeFound (s.find? (object · = obj)) := by
  unfold SimpleOrderedList.removeObject
  rw [SimpleOrderedList.search_eq h.synonyms, Option.bind_eq_bind, Option.bind_some]
  cases hfind : s.find? (object · = obj) with
  | none => rfl
  | some e =>
    rw [removeFound, h.remove_synonym (List.mem_of_find?_eq_some hfind), Option.map_map,
      Option.map_map]
    rfl

/-! The calls on the synonyms stand for themselves here, so that their loops are not unfolded. -/

omit [DecidableEq α] in
/-- The two cases of the search. -/
theorem search_match (x r : Option (Option α)) :
    (do match ← x with
        | some e => some (some e)
        | none => r) = x.bind fun e => e.elim r fun e => some (some e) := by
  cases x with
  | none => rfl
  | some e => cases e <;> rfl

omit [DecidableEq α] in
/-- What the vector does not find is searched among the synonyms. -/
theorem search_of_vector_none (h : q.vector.search object obj = some none) :
    q.search object obj = q.synonyms.search object obj := by
  have heq : q.search object obj = (q.vector.search object obj).bind _ := search_match _ _
  rw [heq, h, Option.bind_some, Option.elim_none]

omit [DecidableEq α] in
/-- The two cases of the removal. -/
theorem removeObject_match (x : Option (Option α × Vector α))
    (r : Option (Option α × SimpleHash α)) :
    (do let (e, vector) ← x
        match e with
        | some e => some (some e, { q with vector := vector })
        | none => r) =
      x.bind fun y => y.1.elim r fun e => some (some e, { q with vector := y.2 }) := by
  cases x with
  | none => rfl
  | some y =>
    obtain ⟨e, v⟩ := y
    cases e <;> rfl

/-- What the vector does not find is removed from the synonyms. -/
theorem removeObject_of_vector_none {v : Vector α}
    (h : q.vector.removeObject object obj = some (none, v)) :
    q.removeObject object obj =
      (q.synonyms.removeObject object obj).map fun r => (r.1, { q with synonyms := r.2 }) := by
  have heq : q.removeObject object obj = (q.vector.removeObject object obj).bind _ :=
    removeObject_match _ _
  rw [heq, h, Option.bind_some, Option.elim_none]

/-- `remove(obj)` removes what `search(obj)` finds. -/
theorem Parts.removeObject_eq (h : q.Parts l s)
    (hguarded : Vector.Guarded object obj q.vector.vector) :
    ∃ r, q.search object obj = some r ∧ q.removeObject object obj = q.removeFound r ∧
      (∀ e, r = some e → e ∈ l ∧ object e = obj) ∧ (r = none → ∀ e ∈ l, object e ≠ obj) := by
  cases hguarded.findObject 0 with
  -- found in a slot of the vector
  | inl hfound =>
    obtain ⟨j, e, heq, hj, hobj⟩ := hfound
    rw [Nat.zero_add] at heq
    refine ⟨some e, ?_, ?_, fun x hx => ?_, fun hx => nomatch hx⟩
    · unfold SimpleHash.search Vector.search
      rw [heq]
      rfl
    · unfold SimpleHash.removeObject Vector.removeObject
      rw [heq, removeFound, h.remove_slot hj]
      rfl
    · cases hx
      exact ⟨h.mem_iff.mpr (.inl (List.mem_of_getElem? hj)), hobj⟩
  -- all slots were passed, and the synonyms are searched
  | inr hnone =>
    have hsearch : q.vector.search object obj = some none := by
      unfold Vector.search
      rw [hnone.1]
      rfl
    have hremove : q.vector.removeObject object obj = some (none, q.vector) := by
      unfold Vector.removeObject
      rw [hnone.1]
      rfl
    refine ⟨s.find? (object · = obj), ?_, ?_, fun x hx => ?_, fun hx e he => ?_⟩
    · rw [search_of_vector_none hsearch, SimpleOrderedList.search_eq h.synonyms]
    · rw [removeObject_of_vector_none hremove, h.synonyms_removeObject]
    · exact ⟨h.mem_iff.mpr (.inr (List.mem_of_find?_eq_some hx)), by
        simpa using List.find?_some hx⟩
    · cases h.mem_iff.mp he with
      | inl he => exact hnone.2 e he
      | inr he => simpa using List.find?_eq_none.mp hx e he

/-- The map is searched properly exactly if its vector was guarded. -/
theorem searchesObject_iff (h : Reached size next key q stored) :
    SearchesObject size next key object obj q stored ↔
      Vector.Guarded object obj q.vector.vector := by
  constructor
  · -- a result means that the object was found in front of the first empty slot
    rintro ⟨r, q', hsearch, -⟩
    obtain ⟨found, hvector, -⟩ := Option.bind_eq_some_iff.mp hsearch
    obtain ⟨_, hfind, -⟩ := Option.map_eq_some_iff.mp hvector
    exact Vector.guarded_of_findObject hfind
  · intro hguarded
    obtain ⟨l, hl, rfl⟩ := h.stores
    obtain ⟨s, hparts⟩ := hl.represents
    obtain ⟨r, hsearch, hremove, hsome, hnone⟩ := hparts.removeObject_eq hguarded
    cases r with
    | none =>
      exact ⟨none, q, hsearch, hremove, rfl, fun e he => hnone rfl e (List.mem_toFinset.mp he)⟩
    -- remove() takes the element by its key, and so it leaves the vector or the synonyms
    | some e =>
      obtain ⟨he, hobj⟩ := hsome e rfl
      obtain ⟨q', heq, -⟩ := hl.remove he
      have hmem := List.mem_toFinset.mpr he
      have hcall : (HashCall.remove e).exec q = some (some e, q') := by
        rw [HashCall.exec, heq]
        rfl
      refine ⟨some e, q', hsearch, ?_, hmem, hobj, h.call (c := .remove e) hmem hcall⟩
      rw [hremove, removeFound, heq]
      rfl

end SimpleHash

/-- Both containers search by object as they should exactly if an element with the object
    is in front of every empty slot. -/
theorem object_search_iff {α β : Type*} [DecidableEq α] [DecidableEq β] (object : α → β)
    (obj : β) :
    (∀ v : Vector α, v.SearchesObject object obj ↔ Vector.Guarded object obj v.vector) ∧
    ∀ (size : TableSize) (next : α → Option α) (key : α → Int) (q : SimpleHash α)
      (stored : Finset α), SimpleHash.Reached size next key q stored →
        (SimpleHash.SearchesObject size next key object obj q stored ↔
          Vector.Guarded object obj q.vector.vector) :=
  ⟨Vector.searchesObject_iff, fun _ _ _ _ _ h => SimpleHash.searchesObject_iff h⟩

/-- Three elements in their slots, of which the one in the middle is removed again. -/
theorem SimpleHash.reached_after_removeKey :
    Reached ⟨3, by decide, by decide⟩ (fun _ => none) (fun e : Nat => (e : Int))
      { vector := { size := 2, vector := [some 0, none, some 2] }
        synonyms := { next := fun _ => none, header := {}, rank := fun e => (e : Int) } }
      {2, 0} := by
  have h₀ : Reached ⟨3, by decide, by decide⟩ (fun _ => none) (fun e : Nat => (e : Int)) _ ∅ :=
    .empty
  have h₁ := h₀.call (c := .insert 0) (by decide) rfl
  have h₂ := h₁.call (c := .insert 1) (by decide) rfl
  have h₃ := h₂.call (c := .insert 2) (by decide) rfl
  exact h₃.call (c := .removeKey 1) trivial rfl

/-- The object of the last one is then searched for through an empty slot. -/
theorem object_search_through_hole :
    ¬ ∀ (size : TableSize) (next : Nat → Option Nat) (key : Nat → Int) (q : SimpleHash Nat)
      (stored : Finset Nat), SimpleHash.Reached size next key q stored →
        ∀ obj : Nat, SimpleHash.SearchesObject size next key (· + 10) obj q stored := by
  intro h
  obtain ⟨r, q', hsearch, -⟩ := h _ _ _ _ _ SimpleHash.reached_after_removeKey 12
  cases hsearch

/-- A map with one element. -/
theorem object_search_iff_example :
    SimpleHash.SearchesObject ⟨3, by decide, by decide⟩ (fun _ => none) (fun e : Nat => (e : Int))
      (· + 10) 10
      { vector := { size := 2, vector := [some 0, none, some 2] }
        synonyms := { next := fun _ => none, header := {}, rank := fun e => (e : Int) } }
      {2, 0} :=
  ((object_search_iff (· + 10) 10).2 _ _ _ _ _ SimpleHash.reached_after_removeKey).mpr
    (Vector.guarded_some_cons.mpr (.inl rfl))

end Epos
