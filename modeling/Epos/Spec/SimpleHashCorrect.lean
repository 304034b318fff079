import Mathlib.Data.List.ReduceOption
import Epos.Kernel.SimpleHash
import Epos.Spec.SimpleListCorrect

/-!
# The hash table on well-formed tables

Every element of the vector stands in the slot of its key, and the synonyms are a list
of their own. On such a table `insert(e)` of a new element and `remove(e)` of one of its
elements succeed, and `search_key` finds an element with the key if there is one.
-/

namespace List

variable {α : Type*} {l : List (Option α)} {i : Nat} {e : α}

/-- Filling a slot adds an element. -/
theorem reduceOption_set_some (h : l[i]? = some none) :
    (l.set i (some e)).reduceOption.Perm (e :: l.reduceOption) := by
  induction l generalizing i with
  | nil => cases h
  | cons x xs ih =>
    cases i with
    | zero =>
      cases h
      rw [set_cons_zero, reduceOption_cons_of_some, reduceOption_cons_of_none]
    | succ i =>
      rw [set_cons_succ]
      cases x with
      | none => exact ih h
      | some x =>
        rw [reduceOption_cons_of_some, reduceOption_cons_of_some]
        exact ((ih h).cons x).trans (.swap e x _)

/-- Emptying a slot takes one away. -/
theorem reduceOption_set_none (h : l[i]? = some (some e)) :
    l.reduceOption.Perm (e :: (l.set i none).reduceOption) := by
  induction l generalizing i with
  | nil => cases h
  | cons x xs ih =>
    cases i with
    | zero =>
      cases h
      rw [set_cons_zero, reduceOption_cons_of_some, reduceOption_cons_of_none]
    | succ i =>
      rw [set_cons_succ]
      cases x with
      | none => exact ih h
      | some x =>
        rw [reduceOption_cons_of_some, reduceOption_cons_of_some]
        exact ((ih h).cons x).trans (.swap e x _)

end List

namespace Epos

namespace Vector

variable {α : Type*} {v : Vector α} {i : Nat} {e : α}

/-- What is in a slot. -/
theorem get_eq_some_iff : v.get i = some e ↔ v.vector[i]? = some (some e) := by
  unfold get
  exact Option.join_eq_some_iff

/-- An empty slot. -/
theorem getElem?_of_get (hi : i < v.vector.length) (h : v.get i = none) :
    v.vector[i]? = some none := by
  unfold get at h
  cases hget : v.vector[i]? with
  | none => exact absurd (List.getElem?_eq_none_iff.mp hget) (Nat.not_le_of_lt hi)
  | some x =>
    rw [hget, Option.join_some] at h
    rw [h]

variable [DecidableEq α]

/-- The vector finds nothing only if the element is in no slot. -/
theorem remove_eq_none (h : v.remove e = none) : some e ∉ v.vector := by
  have hnone := List.findIdx?_eq_none_iff.mp (Option.map_eq_none_iff.mp h)
  intro he
  simpa using hnone _ he

/-- A removal that succeeds empties a slot with the element. -/
theorem remove_eq_some {v' : Vector α} (h : v.remove e = some v') :
    ∃ i : Nat, v.vector[i]? = some (some e) ∧ v'.vector = v.vector.set i none := by
  obtain ⟨i, hfind, rfl⟩ := Option.map_eq_some_iff.mp h
  obtain ⟨hi, heq, -⟩ := List.findIdx?_eq_some_iff_getElem.mp hfind
  refine ⟨i, ?_, rfl⟩
  rw [List.getElem?_eq_getElem hi, of_decide_eq_true heq]

end Vector

/-! ## The synonyms -/

/-- The search along the links finds what the search in the list finds. -/
theorem searchFrom_eq {α : Type*} {next : α → Option α} (rank : α → Int) (k : Int) {l : List α}
    {fuel : Nat} (h : l.Chained next none) (hfuel : l.length ≤ fuel) :
    searchFrom next rank k fuel l.head? = some (l.find? (rank · = k)) := by
  induction l generalizing fuel with
  | nil => simp [searchFrom]
  | cons x xs ih =>
    obtain ⟨n, rfl⟩ := Nat.exists_eq_succ_of_ne_zero (Nat.ne_of_gt (Nat.zero_lt_of_lt hfuel))
    have hnext : next x = xs.head? := by rw [h.1, Option.or_none]
    rw [List.head?_cons, searchFrom, hnext, ih h.2 (Nat.le_of_succ_le_succ hfuel)]
    by_cases hx : rank x = k
    · rw [if_pos hx, List.find?_cons_of_pos (by simpa using hx)]
    · rw [if_neg hx, List.find?_cons_of_neg (by simpa using hx)]

/-- `search_rank()` finds the first element of the rank. -/
theorem SimpleOrderedList.searchRank_eq {α : Type*} {q : SimpleOrderedList α} {l : List α}
    (h : q.Represents l) (k : Int) : q.searchRank k = some (l.find? (q.rank · = k)) := by
  have hhead : q.header.head = l.head? := h.head
  unfold searchRank
  rw [hhead]
  exact searchFrom_eq q.rank k h.chained h.length_le_findFuel

/-! ## The table -/

namespace SimpleHash

variable {α : Type*} {q q' : SimpleHash α} {l s : List α} {e : α} {k : Int}

/-- The table has these elements, of which `s` are the synonyms. -/
structure Parts (q : SimpleHash α) (l s : List α) : Prop where
  synonyms : q.synonyms.Represents s
  perm : l.Perm (q.vector.vector.reduceOption ++ s)
  slot : ∀ (i : Nat) (e : α), q.vector.vector[i]? = some (some e) → q.slot (q.key e) = i
  nodup : l.Nodup
  pos : 0 < q.vector.vector.length

def Represents (q : SimpleHash α) (l : List α) : Prop := ∃ s, q.Parts l s

/-- The element is in the vector or among the synonyms. -/
def Contains (q : SimpleHash α) (e : α) : Prop :=
  some e ∈ q.vector.vector ∨ List.ChainHas q.synonyms.next q.synonyms.header.head e

/-- An element is in a slot or among the synonyms. -/
theorem Parts.mem_iff (h : q.Parts l s) : e ∈ l ↔ some e ∈ q.vector.vector ∨ e ∈ s := by
  rw [h.perm.mem_iff, List.mem_append, List.reduceOption_mem_iff]

/-- What a map contains are its elements. -/
theorem Represents.contains_iff (h : q.Represents l) : q.Contains e ↔ e ∈ l := by
  obtain ⟨s, h⟩ := h
  have hhead : q.synonyms.header.head = s.head? := h.synonyms.head
  rw [h.mem_iff, SimpleHash.Contains, hhead, h.synonyms.chained.chainHas_iff]

/-- None of them twice. -/
theorem Represents.nodup (h : q.Represents l) : l.Nodup := h.choose_spec.nodup

/-- A new map has none. -/
theorem represents_init {n : Nat} (hn : 0 < n) (next : α → Option α) (rank : α → Int) :
    SimpleHash.Represents { vector := .init n, synonyms := { next, header := {}, rank } } [] := by
  refine ⟨[], ⟨rfl, rfl, rfl, trivial⟩, ?_, fun i e he => ?_, List.nodup_nil, ?_⟩
  · rw [List.append_nil]
    show [].Perm (List.replicate n (none : Option α)).reduceOption
    rw [List.reduceOption_replicate_none]
  · have hmem := List.mem_of_getElem? he
    cases (List.mem_replicate.mp hmem).2
  · show 0 < (List.replicate n none).length
    rwa [List.length_replicate]

/-- `search_key` finds an element with the key if there is one. -/
theorem Represents.searchKey (h : q.Represents l) (k : Int) :
    ∃ r, q.searchKey k = some r ∧ (∀ e, r = some e → e ∈ l ∧ q.key e = k) ∧
      (r = none → ∀ e ∈ l, q.key e ≠ k) := by
  obtain ⟨s, h⟩ := h
  have hrank := SimpleOrderedList.searchRank_eq h.synonyms k
  have hfound (e : α) (he : s.find? (q.synonyms.rank · = k) = some e) : e ∈ l ∧ q.key e = k :=
    ⟨h.mem_iff.mpr (.inr (List.mem_of_find?_eq_some he)), by simpa [key] using List.find?_some he⟩
  -- an element of the vector with the key stands in its slot
  have hslot (e : α) (he : some e ∈ q.vector.vector) (hk : q.key e = k) :
      q.vector.get (q.slot k) = some e := by
    obtain ⟨i, hi⟩ := List.mem_iff_getElem?.mp he
    rw [← hk, h.slot i e hi]
    exact Vector.get_eq_some_iff.mpr hi
  have hmissed (hnone : s.find? (q.synonyms.rank · = k) = none)
      (hvector : ∀ e, some e ∈ q.vector.vector → q.key e ≠ k) : ∀ e ∈ l, q.key e ≠ k := by
    intro e he
    cases h.mem_iff.mp he with
    | inl he => exact hvector e he
    | inr he => simpa [key] using List.find?_eq_none.mp hnone e he
  unfold SimpleHash.searchKey
  cases hget : q.vector.get (q.slot k) with
  | none =>
    refine ⟨_, hrank, hfound, fun hnone => hmissed hnone fun e he hk => ?_⟩
    rw [hslot e he hk] at hget
    cases hget
  | some e =>
    by_cases hk : q.key e = k
    · refine ⟨some e, if_pos hk, fun x hx => ?_, fun hnone => nomatch hnone⟩
      cases hx
      have he := List.mem_of_getElem? (Vector.get_eq_some_iff.mp hget)
      exact ⟨h.mem_iff.mpr (.inl he), hk⟩
    · simp only [if_neg hk]
      refine ⟨_, hrank, hfound, fun hnone => hmissed hnone fun x hx hxk => ?_⟩
      rw [hslot x hx hxk] at hget
      cases hget
      exact hk hxk

variable [DecidableEq α]

/-- An element that is not in the table may be written. -/
theorem Represents.construct (h : q.Represents l) (he : e ∉ l) (k : Int) :
    (q.construct e k).Represents l := by
  obtain ⟨s, h⟩ := h
  have hne {x : α} (hx : x ∈ l) : x ≠ e := ne_of_mem_of_not_mem hx he
  refine ⟨s, ⟨h.synonyms.size, h.synonyms.head, h.synonyms.tail, ?_⟩, h.perm, fun i x hx => ?_,
    h.nodup, h.pos⟩
  · refine h.synonyms.chained.congr fun x hx => Function.update_of_ne (hne ?_) _ _
    exact h.mem_iff.mpr (.inr hx)
  · have hxl := h.mem_iff.mpr (.inl (List.mem_of_getElem? hx))
    have hkey : (q.construct e k).key x = q.key x := Function.update_of_ne (hne hxl) _ _
    rw [hkey]
    exact h.slot i x hx

/-- `insert()` adds the element. -/
theorem Represents.insert (h : q.Represents l) (he : e ∉ l) :
    ∃ q', q.insert e = some q' ∧ q'.Represents (e :: l) ∧ q'.synonyms.rank = q.synonyms.rank := by
  obtain ⟨s, h⟩ := h
  have hes : e ∉ s := fun hs => he (h.mem_iff.mpr (.inr hs))
  have hnodup : (e :: l).Nodup := List.nodup_cons.mpr ⟨he, h.nodup⟩
  have hlt : q.slot (q.key e) < q.vector.vector.length := Nat.mod_lt _ h.pos
  unfold SimpleHash.insert Vector.insert
  cases hget : q.vector.get (q.slot (q.key e)) with
  -- a free slot takes the element
  | none =>
    have hnone := Vector.getElem?_of_get hlt hget
    refine ⟨_, rfl, ⟨s, h.synonyms, ?_, fun i x hx => ?_, hnodup, ?_⟩, rfl⟩
    · exact ((h.perm.cons e).trans (List.Perm.append_right s
        (List.reduceOption_set_some hnone).symm))
    · have hx' : (q.vector.vector.set (q.slot (q.key e)) (some e))[i]? = some (some x) := hx
      show (q.key x % 2 ^ 32).toNat % (q.vector.vector.set _ _).length = i
      rw [List.length_set]
      by_cases hi : q.slot (q.key e) = i
      · rw [← hi, List.getElem?_set_self hlt] at hx'
        cases hx'
        exact hi
      · rw [List.getElem?_set_ne hi] at hx'
        exact h.slot i x hx'
    · show 0 < (q.vector.vector.set _ _).length
      rw [List.length_set]
      exact h.pos
  -- the slot is taken, and the element goes to the synonyms
  | some x =>
    obtain ⟨o, hins, ho, hrank⟩ := SimpleOrderedList.insert_absolute h.synonyms hes
    simp only [Bool.false_eq_true, if_false, hins]
    refine ⟨_, rfl, ⟨_, ho, ?_, fun i y hy => ?_, hnodup, h.pos⟩, hrank⟩
    · have hs := List.perm_insertRank q.synonyms.rank e s
      exact ((h.perm.cons e).trans List.perm_middle.symm).trans (hs.symm.append_left _)
    · have hkey : SimpleHash.key { q with synonyms := o } y = q.key y := congrFun hrank y
      rw [hkey]
      exact h.slot i y hy

/-- `remove()` takes it away. -/
theorem Represents.remove (h : q.Represents l) (he : e ∈ l) :
    ∃ q', q.remove e = some q' ∧ q'.Represents (l.erase e) ∧
      q'.synonyms.rank = q.synonyms.rank := by
  obtain ⟨s, h⟩ := h
  have hnodup : (l.erase e).Nodup := h.nodup.erase e
  have hperm := (List.perm_cons_erase he).symm.trans h.perm
  unfold SimpleHash.remove
  cases hv : q.vector.remove e with
  | some v =>
    obtain ⟨i, hi, hset⟩ := Vector.remove_eq_some hv
    refine ⟨_, rfl, ⟨s, h.synonyms, ?_, fun j x hx => ?_, hnodup, ?_⟩, rfl⟩
    · have hset' := (List.reduceOption_set_none hi).append_right s
      rw [← hset] at hset'
      exact (hperm.trans hset').cons_inv
    · show (q.key x % 2 ^ 32).toNat % v.vector.length = j
      have hx' : v.vector[j]? = some (some x) := hx
      rw [hset] at hx' ⊢
      rw [List.length_set]
      by_cases hij : i = j
      · have hlt := (List.getElem?_eq_some_iff.mp hi).1
        rw [← hij, List.getElem?_set_self hlt] at hx'
        cases hx'
      · rw [List.getElem?_set_ne hij] at hx'
        exact h.slot j x hx'
    · show 0 < v.vector.length
      rw [hset, List.length_set]
      exact h.pos
  | none =>
    -- What is not in the vector is a synonym.
    have hes : e ∈ s := (h.mem_iff.mp he).resolve_left (Vector.remove_eq_none hv)
    obtain ⟨L, hremove, hL⟩ := h.synonyms.remove hes
    refine ⟨{ q with synonyms := { toSimpleList := L, rank := q.synonyms.rank } }, ?_,
      ⟨s.erase e, hL, ?_, h.slot, hnodup, h.pos⟩, rfl⟩
    · simp [SimpleOrderedList.remove, hremove]
    · have hs := (List.perm_cons_erase hes).append_left q.vector.vector.reduceOption
      exact (hperm.trans (hs.trans List.perm_middle)).cons_inv

end SimpleHash

end Epos
