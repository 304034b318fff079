import Mathlib.Data.Finset.Card
import Epos.Kernel.HashCalls
import Epos.Spec.SimpleHashCorrect

/-!
# The hash table is a finite multimap

`remove_key` is `remove` of what `search_key` finds, and the iterator goes through the
vector and then through the synonyms. With the two sizes counted along, any sequence of
calls on an empty table keeps the elements that were inserted and not removed since.
-/

namespace Epos

namespace Vector

variable {α : Type*} {v : Vector α} {i : Nat} {e : α}

/-- `_size` is the number of slots in use. -/
def Counted (v : Vector α) : Prop := v.size = v.vector.reduceOption.length

/-- A new vector counts no element. -/
theorem counted_init (n : Nat) : (Vector.init n : Vector α).Counted := by
  show (0 : Int) = (List.replicate n (none : Option α)).reduceOption.length
  rw [List.reduceOption_replicate_none]
  rfl

/-- The capacity of a vector stays. -/
theorem length_insert : (v.insert e i).2.vector.length = v.vector.length := by
  unfold insert
  cases v.get i with
  | some x => rfl
  | none => exact List.length_set

/-- Inserting is counted. -/
theorem Counted.insert (h : v.Counted) (hi : i < v.vector.length) : (v.insert e i).2.Counted := by
  unfold Vector.insert
  cases hget : v.get i with
  | some x => exact h
  | none =>
    have hperm := List.reduceOption_set_some (e := e) (getElem?_of_get hi hget)
    show v.size + 1 = _
    rw [hperm.length_eq, h, List.length_cons]
    omega

/-- Emptying a slot. -/
theorem Counted.set_none (h : v.Counted) (hi : v.vector[i]? = some (some e)) :
    Counted { size := v.size - 1, vector := v.vector.set i none } := by
  have hlength := (List.reduceOption_set_none hi).length_eq
  rw [List.length_cons] at hlength
  show v.size - 1 = ((v.vector.set i none).reduceOption.length : Int)
  rw [h]
  omega

/-- `remove(e)` empties the only slot with the element. -/
theorem remove_of_unique [DecidableEq α] (hi : v.vector[i]? = some (some e))
    (hunique : ∀ j, v.vector[j]? = some (some e) → j = i) :
    v.remove e = some { size := v.size - 1, vector := v.vector.set i none } := by
  have hlt := (List.getElem?_eq_some_iff.mp hi).1
  have hfind : v.vector.findIdx? (· = some e) = some i := by
    apply List.findIdx?_eq_some_iff_getElem.mpr
    refine ⟨hlt, ?_, fun j hj hje => ?_⟩
    · rw [List.getElem?_eq_getElem hlt, Option.some_inj] at hi
      rw [hi, decide_eq_true rfl]
    · have hje' := List.getElem?_eq_getElem (Nat.lt_trans hj hlt)
      rw [of_decide_eq_true hje] at hje'
      exact Nat.ne_of_lt hj (hunique j hje')
  unfold remove
  rw [hfind]
  rfl

/-- The vector does not find an element that is in no slot. -/
theorem remove_of_not_mem [DecidableEq α] (h : some e ∉ v.vector) : v.remove e = none := by
  unfold remove
  rw [Option.map_eq_none_iff, List.findIdx?_eq_none_iff]
  intro x hx
  apply decide_eq_false
  rintro rfl
  exact h hx

end Vector

namespace SimpleHash

variable {α : Type*} {q q' : SimpleHash α} {l s : List α} {e : α} {k : Int} {i : Nat}

/-! ## Removal by key -/

/-- What is in a slot is not among the synonyms. -/
theorem Parts.not_mem_synonyms (h : q.Parts l s) (he : some e ∈ q.vector.vector) : e ∉ s := by
  have hnodup := h.perm.nodup_iff.mp h.nodup
  exact List.disjoint_of_nodup_append hnodup (List.reduceOption_mem_iff.mpr he)

section Remove

variable [DecidableEq α]

/-- Removing from a slot. -/
theorem Parts.vector_remove (h : q.Parts l s) (hi : q.vector.vector[i]? = some (some e)) :
    q.vector.remove e = some { size := q.vector.size - 1, vector := q.vector.vector.set i none } :=
  Vector.remove_of_unique hi fun j hj => (h.slot j e hj).symm.trans (h.slot i e hi)

/-- Removing what is in a slot. -/
theorem Parts.remove_slot (h : q.Parts l s) (hi : q.vector.vector[i]? = some (some e)) :
    q.remove e = some { q with
      vector := { size := q.vector.size - 1, vector := q.vector.vector.set i none } } := by
  unfold SimpleHash.remove
  rw [h.vector_remove hi]

/-- Removing what is among the synonyms. -/
theorem Parts.remove_synonym (h : q.Parts l s) (he : e ∈ s) :
    q.remove e = (q.synonyms.remove false e).map fun l => { q with synonyms := l } := by
  have hvector : some e ∉ q.vector.vector := fun hv => h.not_mem_synonyms hv he
  unfold SimpleHash.remove
  rw [Vector.remove_of_not_mem hvector]

/-- The removal of a found element, if there is one. -/
def removeFound (q : SimpleHash α) : Option α → Option (Option α × SimpleHash α)
  | some e => (q.remove e).map fun q => (some e, q)
  | none => some (none, q)

/-- Removing by key among the synonyms. -/
theorem Parts.removeRank (h : q.Parts l s) (k : Int) :
    (q.synonyms.removeRank k).map (fun r => (r.1, { q with synonyms := r.2 })) =
      (q.synonyms.searchRank k).bind q.removeFound := by
  unfold SimpleOrderedList.removeRank
  rw [SimpleOrderedList.searchRank_eq h.synonyms k]
  cases hfind : s.find? (q.synonyms.rank · = k) with
  | none => rfl
  | some e =>
    have hremove := h.remove_synonym (List.mem_of_find?_eq_some hfind)
    rw [Option.bind_some, removeFound, hremove, Option.map_map, Option.bind_eq_bind,
      Option.bind_some, Option.map_map]
    rfl

/-- `remove_key` removes what `search_key` finds. -/
theorem Represents.removeKey_eq (h : q.Represents l) (k : Int) :
    q.removeKey k = (q.searchKey k).bind q.removeFound := by
  obtain ⟨s, h⟩ := h
  unfold SimpleHash.removeKey SimpleHash.searchKey
  dsimp only
  cases hget : q.vector.get (q.slot k) with
  | none => exact h.removeRank k
  | some e =>
    by_cases hk : q.key e = k
    · have hremove := h.remove_slot (Vector.get_eq_some_iff.mp hget)
      dsimp only
      rw [if_pos hk, Option.any_some, if_pos (decide_eq_true hk), Option.bind_some, removeFound,
        hremove, Vector.removeAt, hget]
      rfl
    · dsimp only
      rw [if_neg hk, Option.any_some, if_neg (by simpa using hk)]
      exact h.removeRank k

end Remove

/-! ## Iteration -/

/-- The iterator skips the empty slots. -/
theorem skip_spec {v : Vector α} {n c : Nat} (h : c + n = v.vector.length) :
    c ≤ skip v n c ∧ skip v n c ≤ v.vector.length ∧
      (v.vector.drop (skip v n c)).reduceOption = (v.vector.drop c).reduceOption ∧
      (skip v n c < v.vector.length → ∃ e, v.vector[skip v n c]? = some (some e)) := by
  induction n generalizing c with
  | zero => exact ⟨Nat.le_refl c, Nat.le_of_eq h, rfl, fun hlt => absurd hlt (by simp [skip]; omega)⟩
  | succ n ih =>
    have hlt : c < v.vector.length := by omega
    unfold skip
    cases hget : v.get c with
    | some e =>
      rw [if_neg (Option.some_ne_none e)]
      exact ⟨Nat.le_refl c, Nat.le_of_lt hlt, rfl, fun _ => ⟨e, Vector.get_eq_some_iff.mp hget⟩⟩
    | none =>
      obtain ⟨hle, hlength, hdrop, hsome⟩ := ih (c := c + 1) (by omega)
      rw [if_pos rfl]
      refine ⟨by omega, hlength, ?_, hsome⟩
      obtain ⟨_, hnone⟩ := List.getElem?_eq_some_iff.mp (Vector.getElem?_of_get hlt hget)
      rw [hdrop, List.drop_eq_getElem_cons hlt, hnone, List.reduceOption_cons_of_none]

/-- The iterator is at the first of these elements, or at the end. -/
inductive At (q : SimpleHash α) (s : List α) : Forward α → List α → Prop
  | ended {x : Option α} : At q s ⟨x, END⟩ []
  | slot {e : α} {c : Nat} (hc : c ≤ q.vector.vector.length) :
      At q s ⟨some e, c⟩ (e :: ((q.vector.vector.drop c).reduceOption ++ s))
  | synonym {e : α} {es : List α} (hes : (e :: es).Chained q.synonyms.next none) :
      At q s ⟨some e, q.vector.vector.length + 1⟩ (e :: es)

/-- Behind a slot or at the beginning, `operator++` goes to the next used slot, or to the
    first synonym. -/
theorem succ_slot (hfits : 4 * q.vector.vector.length ≤ 2 ^ 32)
    (hs : q.synonyms.header.head = s.head?)
    (hchained : s.Chained q.synonyms.next none) {x : Option α} {c : Nat}
    (hc : c ≤ q.vector.vector.length) :
    ∃ it, Forward.succ q ⟨x, c⟩ = some it ∧
      At q s it ((q.vector.vector.drop c).reduceOption ++ s) := by
  obtain ⟨hle, hlength, hdrop, hsome⟩ := skip_spec (v := q.vector)
    (Nat.add_sub_cancel' hc)
  unfold Forward.succ
  dsimp only
  rw [← hdrop]
  -- d is the first taken slot from c on, or the end of the vector
  generalize skip q.vector (q.vector.vector.length - c) c = d at hle hlength hsome
  -- the iterator goes to the slot d
  by_cases hd : d < q.vector.vector.length
  · obtain ⟨e, he⟩ := hsome hd
    obtain ⟨_, he'⟩ := List.getElem?_eq_some_iff.mp he
    rw [if_pos hd, Vector.get_eq_some_iff.mpr he, Nat.mod_eq_of_lt (by omega)]
    refine ⟨⟨some e, d + 1⟩, rfl, ?_⟩
    rw [List.drop_eq_getElem_cons hd, he', List.reduceOption_cons_of_some]
    exact .slot hd
  · -- all slots are passed, and the synonyms come next
    have hd : d = q.vector.vector.length := by omega
    subst hd
    rw [if_neg (Nat.lt_irrefl _), if_pos rfl, List.drop_length, Nat.mod_eq_of_lt (by omega), hs]
    cases s with
    | nil => exact ⟨_, rfl, .ended⟩
    | cons e es => exact ⟨_, rfl, .synonym hchained⟩

/-- The iterator goes to the next element. -/
theorem At.succ (hfits : 4 * q.vector.vector.length ≤ 2 ^ 32)
    (hs : q.synonyms.header.head = s.head?) (hchained : s.Chained q.synonyms.next none)
    {it : Forward α} (h : At q s it (e :: l)) :
    ∃ it', it.succ q = some it' ∧ At q s it' l := by
  cases h with
  | slot hc => exact succ_slot hfits hs hchained hc
  | synonym hes =>
    have hnext : q.synonyms.next e = l.head? := by rw [hes.1, Option.or_none]
    unfold Forward.succ
    dsimp only
    rw [Nat.sub_eq_zero_of_le (Nat.le_succ _)]
    show ∃ it', _ ∧ _
    rw [skip, if_neg (by omega), if_neg (by omega), Option.bind_eq_bind, Option.bind_some, hnext]
    cases l with
    | nil => exact ⟨_, rfl, .ended⟩
    | cons x xs => exact ⟨_, rfl, .synonym hes.2⟩

/-- From an element the iterator visits those behind. -/
theorem At.visitFrom (hfits : 4 * q.vector.vector.length ≤ 2 ^ 32)
    (hs : q.synonyms.header.head = s.head?) (hchained : s.Chained q.synonyms.next none)
    {it : Forward α} {fuel : Nat} (h : At q s it l) (hfuel : l.length < fuel) :
    q.visitFrom fuel it = some l := by
  -- induction on the elements that the iterator has still in front of it
  induction l generalizing it fuel with
  | nil =>
    cases h
    obtain ⟨n, rfl⟩ := Nat.exists_eq_succ_of_ne_zero (Nat.ne_of_gt hfuel)
    rfl
  | cons e es ih =>
    obtain ⟨n, rfl⟩ := Nat.exists_eq_succ_of_ne_zero (Nat.ne_of_gt (Nat.zero_lt_of_lt hfuel))
    obtain ⟨it', hsucc, h'⟩ := h.succ hfits hs hchained
    have hvisit := ih h' (Nat.lt_of_succ_lt_succ hfuel)
    have hcounter : it.counter ≠ END := by
      unfold END
      cases h with
      | slot hc =>
        dsimp only
        omega
      | synonym _ =>
        dsimp only
        omega
    have hcurrent : it.current = some e := by cases h <;> rfl
    unfold SimpleHash.visitFrom
    rw [if_neg hcounter, hcurrent]
    simp only [Option.bind_eq_bind, Option.bind_some, hsucc, hvisit]

/-- A loop from `begin()` to `end()` visits the vector and then the synonyms. -/
theorem Parts.visit (h : q.Parts l s) (hfits : 4 * q.vector.vector.length ≤ 2 ^ 32) {fuel : Nat}
    (hfuel : l.length < fuel) :
    q.visit fuel = some (q.vector.vector.reduceOption ++ s) := by
  have hs : q.synonyms.header.head = s.head? := h.synonyms.head
  have hchained : s.Chained q.synonyms.next none := h.synonyms.chained
  obtain ⟨it, hbegin, hat⟩ := succ_slot hfits hs hchained (x := none) (Nat.zero_le _)
  rw [List.drop_zero] at hat
  rw [h.perm.length_eq] at hfuel
  unfold SimpleHash.visit SimpleHash.begin
  rw [hbegin, Option.bind_some]
  exact hat.visitFrom hfits hs hchained hfuel

/-! ## The invariant -/

section Stores

variable [DecidableEq α] {size : TableSize} {next : α → Option α} {key : α → Int}
  {stored : Finset α} {c : HashCall α} {r : Option α}

/-- The table has exactly the stored elements, and `_size` of the vector counts its part. -/
structure Stores (size : TableSize) (key : α → Int) (q : SimpleHash α) (l : List α) : Prop where
  represents : q.Represents l
  counted : q.vector.Counted
  length : q.vector.vector.length = size.n
  key : q.synonyms.rank = key

omit [DecidableEq α] in
/-- An empty map stores nothing. -/
theorem Stores.empty : Stores size key (SimpleHash.empty size next key) [] :=
  ⟨represents_init size.pos next key, Vector.counted_init size.n, List.length_replicate, rfl⟩

omit [DecidableEq α] in
/-- The key of an element stays. -/
theorem Stores.key_eq (h : Stores size key q l) (e : α) : q.key e = key e := congrFun h.key e

/-- An insertion tries one slot. -/
theorem insert_vector (heq : q.insert e = some q') :
    q'.vector = (q.vector.insert e (q.slot (q.key e))).2 := by
  unfold SimpleHash.insert Vector.insert at heq
  unfold Vector.insert
  cases hget : q.vector.get (q.slot (q.key e)) with
  | none =>
    rw [hget] at heq
    cases heq
    rfl
  | some x =>
    rw [hget] at heq
    obtain ⟨o, -, rfl⟩ := Option.map_eq_some_iff.mp heq
    rfl

/-- `insert()` stores the element. -/
theorem Stores.insert (h : Stores size key q l) (he : e ∉ l) :
    ∃ q', q.insert e = some q' ∧ Stores size key q' (e :: l) := by
  obtain ⟨q', heq, hrep, hrank⟩ := h.represents.insert he
  have hvector := insert_vector heq
  have hpos : 0 < q.vector.vector.length := h.length ▸ size.pos
  refine ⟨q', heq, hrep, ?_, ?_, hrank.trans h.key⟩
  · rw [hvector]
    exact h.counted.insert (Nat.mod_lt _ hpos)
  · rw [hvector, Vector.length_insert, h.length]

/-- `remove()` takes it away. -/
theorem Stores.remove (h : Stores size key q l) (he : e ∈ l) :
    ∃ q', q.remove e = some q' ∧ Stores size key q' (l.erase e) := by
  obtain ⟨q', heq, hrep, hrank⟩ := h.represents.remove he
  refine ⟨q', heq, hrep, ?_, ?_, hrank.trans h.key⟩
  all_goals
    obtain ⟨s, hparts⟩ := h.represents
    cases hparts.mem_iff.mp he with
    | inl hv =>
      obtain ⟨i, hi⟩ := List.mem_iff_getElem?.mp hv
      rw [hparts.remove_slot hi] at heq
      cases heq
      first
        | exact h.counted.set_none hi
        | exact List.length_set.trans h.length
    | inr hs =>
      rw [hparts.remove_synonym hs] at heq
      obtain ⟨o, -, rfl⟩ := Option.map_eq_some_iff.mp heq
      first
        | exact h.counted
        | exact h.length

omit [DecidableEq α] in
/-- The size counts the elements. -/
theorem Stores.size_eq (h : Stores size key q l) : q.size = l.length := by
  obtain ⟨s, hparts⟩ := h.represents
  have hsynonyms : q.synonyms.header.size = s.length := hparts.synonyms.size
  have hcounted : q.vector.size = q.vector.vector.reduceOption.length := h.counted
  have hlength := hparts.perm.length_eq
  rw [List.length_append] at hlength
  unfold SimpleHash.size
  omega

/-- `search_key()` finds what is stored. -/
theorem Stores.searchKey (h : Stores size key q l) (k : Int) :
    ∃ r, q.searchKey k = some r ∧ HashCall.Finds key l.toFinset k r := by
  obtain ⟨r, heq, hsome, hnone⟩ := h.represents.searchKey k
  refine ⟨r, heq, ?_⟩
  cases r with
  | some e =>
    obtain ⟨he, hk⟩ := hsome e rfl
    exact ⟨List.mem_toFinset.mpr he, (h.key_eq e).symm.trans hk⟩
  | none =>
    intro e he
    rw [← h.key_eq e]
    exact hnone rfl e (List.mem_toFinset.mp he)

/-- Every allowed call gives a right answer and keeps the invariant. -/
theorem Stores.exec (h : Stores size key q l) (ha : c.Allowed l.toFinset) :
    ∃ r q' l', c.exec q = some (r, q') ∧ c.Answers key l.toFinset r ∧ Stores size key q' l' ∧
      l'.toFinset = c.result l.toFinset r := by
  have hnodup := h.represents.nodup
  -- erasing from the list is erasing from the set
  have herase (e : α) : (l.erase e).toFinset = l.toFinset.erase e := by
    ext x
    rw [List.mem_toFinset, hnodup.mem_erase_iff, Finset.mem_erase, List.mem_toFinset]
  cases c with
  | insert e =>
    have he : e ∉ l := fun hmem => ha (List.mem_toFinset.mpr hmem)
    obtain ⟨q', heq, h'⟩ := h.insert he
    refine ⟨none, q', e :: l, ?_, rfl, h', List.toFinset_cons⟩
    rw [HashCall.exec, heq]
    rfl
  | remove e =>
    obtain ⟨q', heq, h'⟩ := h.remove (List.mem_toFinset.mp ha)
    refine ⟨some e, q', l.erase e, ?_, rfl, h', herase e⟩
    rw [HashCall.exec, heq]
    rfl
  | removeKey k =>
    obtain ⟨r, hsearch, hfinds⟩ := h.searchKey k
    have hremove := h.represents.removeKey_eq k
    rw [hsearch, Option.bind_some] at hremove
    -- a removal by key removes what the search finds
    cases r with
    | none => exact ⟨none, q, l, hremove, hfinds, h, rfl⟩
    | some e =>
      obtain ⟨q', heq, h'⟩ := h.remove (List.mem_toFinset.mp hfinds.1)
      refine ⟨some e, q', l.erase e, ?_, hfinds, h', herase e⟩
      rw [HashCall.exec, hremove, removeFound, heq]
      rfl
  | searchKey k =>
    obtain ⟨r, hsearch, hfinds⟩ := h.searchKey k
    refine ⟨r, q, l, ?_, hfinds, h, rfl⟩
    rw [HashCall.exec, hsearch]
    rfl

/-- Every map that can be reached stores what it should. -/
theorem Reached.stores (h : Reached size next key q stored) :
    ∃ l, Stores size key q l ∧ l.toFinset = stored := by
  induction h with
  | empty => exact ⟨[], .empty, rfl⟩
  | call _ ha heq ih =>
    obtain ⟨l, hl, rfl⟩ := ih
    obtain ⟨r, q', l', heq', -, hl', hresult⟩ := hl.exec ha
    rw [heq'] at heq
    cases heq
    exact ⟨l', hl', hresult⟩

/-- After any calls: every call that is allowed gives a right answer, `size()` is the number
    of stored elements, and a loop over the table visits each of them once. -/
theorem hash_multimap (h : Reached size next key q stored) :
    (∀ c : HashCall α, c.Allowed stored →
      ∃ r q', c.exec q = some (r, q') ∧ c.Answers key stored r) ∧
    q.size = stored.card ∧
    ∀ fuel, stored.card < fuel →
      ∃ es, q.visit fuel = some es ∧ es.Nodup ∧ ∀ e, e ∈ es ↔ e ∈ stored := by
  obtain ⟨l, hl, rfl⟩ := h.stores
  have hcard : l.toFinset.card = l.length := List.toFinset_card_of_nodup hl.represents.nodup
  rw [hcard]
  refine ⟨fun c hc => ?_, hl.size_eq, fun fuel hfuel => ?_⟩
  · obtain ⟨r, q', _, heq, hanswers, -⟩ := hl.exec hc
    exact ⟨r, q', heq, hanswers⟩
  · obtain ⟨s, hparts⟩ := hl.represents
    have hfits : 4 * q.vector.vector.length ≤ 2 ^ 32 := by
      rw [hl.length]
      exact size.fits
    refine ⟨_, hparts.visit hfits hfuel, hparts.perm.nodup_iff.mp hparts.nodup, fun e => ?_⟩
    rw [← hparts.perm.mem_iff, List.mem_toFinset]

end Stores

/-- Three slots. The first two elements have the same key and the third one a negative key,
    `4294967295` as an `unsigned int`; the first leaves the vector and comes back. -/
theorem hash_multimap_example :
    ∃ q : SimpleHash Nat, q.size = 3 ∧
      ∃ es, q.visit 4 = some es ∧ es.Nodup ∧ ∀ e, e ∈ es ↔ e ∈ ({1, 2, 3} : Finset Nat) := by
  have h₀ : Reached ⟨3, by decide, by decide⟩ (fun _ => some 7)
      (fun e : Nat => if e = 3 then -1 else 4) _ ∅ := .empty
  have h₁ := h₀.call (c := .insert 1) (by decide) rfl
  have h₂ := h₁.call (c := .insert 2) (by decide) rfl
  have h₃ := h₂.call (c := .insert 3) (by decide) rfl
  have h₄ := h₃.call (c := .removeKey 4) trivial rfl
  have h₅ := h₄.call (c := .searchKey 4) trivial rfl
  have h₆ := h₅.call (c := .insert 1) (by decide) rfl
  obtain ⟨-, hsize, hvisit⟩ := hash_multimap h₆
  obtain ⟨es, heq, hnodup, hmem⟩ := hvisit 4 (by decide)
  refine ⟨_, hsize, es, heq, hnodup, fun e => ?_⟩
  rw [hmem]
  revert e
  apply Finset.ext_iff.mp
  decide

end SimpleHash

end Epos
