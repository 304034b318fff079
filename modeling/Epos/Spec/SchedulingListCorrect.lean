import Epos.Kernel.SchedulingList

/-!
# What the scheduling list keeps

Every operation permutes, adds or takes out threads as its name says, keeps the
list sorted, and leaves the most urgent thread chosen wherever it picks one.
-/

namespace Epos

namespace SchedulingList

variable {rank : Tid → Int} {eligible : Tid → Bool} {l : SchedulingList} {e x : Tid}

/-- The elements are the chosen one and those listed. -/
theorem mem_toList : x ∈ l.toList ↔ l.chosen = some x ∨ x ∈ l.list := by
  simp [toList]

/-- The chosen one is an element. -/
theorem mem_toList_of_chosen (h : l.chosen = some x) : x ∈ l.toList :=
  mem_toList.mpr (.inl h)

/-- A listed element is an element. -/
theorem mem_toList_of_list (h : x ∈ l.list) : x ∈ l.toList :=
  mem_toList.mpr (.inr h)

/-- The chosen thread is not listed. -/
theorem not_mem_list (hnd : l.toList.Nodup) (hx : l.chosen = some x) : x ∉ l.list := by
  rw [toList, hx, Option.toList_some, List.singleton_append, List.nodup_cons] at hnd
  exact hnd.1

/-- Nothing is listed twice. -/
theorem list_nodup (hnd : l.toList.Nodup) : l.list.Nodup :=
  (List.nodup_append.mp hnd).2.1

/-! ## Membership -/

/-- `insert()` adds the element. -/
theorem insert_perm : (l.insert rank e).toList.Perm (e :: l.toList) := by
  unfold insert toList
  cases h : l.chosen with
  | none => simp
  | some x =>
    simp only [Option.toList_some, List.singleton_append]
    exact ((List.perm_insertRank rank e l.list).cons x).trans (.swap _ _ _)

/-- `remove()` takes it away. -/
theorem remove_toList : (l.remove e).toList = l.toList.erase e := by
  unfold remove toList
  split
  · rename_i h
    rw [h]
    cases l.list <;> simp
  · rename_i h
    cases hc : l.chosen with
    | none => simp
    | some x =>
      have hx : (x == e) = false := by
        rw [hc, Option.some.injEq] at h
        simpa using h
      simp [hx]

/-- `choose()` only permutes. -/
theorem choose_perm : (l.choose rank eligible).toList.Perm l.toList := by
  unfold choose
  split
  · rename_i x h q hc hl
    split
    · have hne : l.list.insertRank rank x ≠ [] := by
        intro hnil
        have := congrArg List.length hnil
        simp at this
      obtain ⟨y, ys, hys⟩ := List.exists_cons_of_ne_nil hne
      have hp := List.perm_insertRank rank x l.list
      rw [hys] at hp
      simpa [toList, hys, hc] using hp
    · exact .refl _
  · exact .refl _

/-- `choose_another()` only permutes. -/
theorem chooseAnother_perm : (l.chooseAnother rank eligible).toList.Perm l.toList := by
  unfold chooseAnother
  split
  · rename_i x h q hc hl
    split
    · simp only [toList, hc, hl, Option.toList_some, List.singleton_append]
      exact ((List.perm_insertRank rank x q).cons h).trans (.swap _ _ _)
    · exact .refl _
  · exact .refl _

/-- `choose(e)` only permutes. -/
theorem chooseElement_perm (he : e ∈ l.toList) :
    (l.chooseElement rank e).toList.Perm l.toList := by
  unfold chooseElement
  split
  · rename_i x hc
    split
    · exact .refl _
    · rename_i hne
      have hmem : e ∈ l.list.insertRank rank x := by
        refine List.mem_insertRank.mpr ((mem_toList.mp he).imp_left fun hch => ?_)
        exact (Option.some.inj (hc.symm.trans hch)).symm
      have hp := (List.perm_cons_erase hmem).symm.trans (List.perm_insertRank rank x l.list)
      simpa [toList, hc] using hp
  · exact .refl _

/-! ## The chosen thread -/

/-- With a chosen element `insert()` goes to the list. -/
theorem insert_chosen (h : l.chosen = some x) :
    l.insert rank e = { chosen := some x, list := l.list.insertRank rank e } := by
  unfold insert
  rw [h]

/-- `choose(e)` chooses `e`. -/
theorem chooseElement_chosen (h : l.chosen.isSome) :
    (l.chooseElement rank e).chosen = some e := by
  obtain ⟨x, hc⟩ := Option.isSome_iff_exists.mp h
  unfold chooseElement
  rw [hc]
  dsimp only
  split
  · rename_i hx
    rw [hc, hx]
  · rfl

/-- Removing the chosen thread leaves a chosen thread where another one is listed. -/
theorem remove_chosen (h : l.chosen = some e) :
    l.remove e = { chosen := l.list.head?, list := l.list.tail } := by
  unfold remove
  rw [if_pos h]

/-- An element that is not chosen is removed from the list. -/
theorem remove_listed (h : l.chosen ≠ some e) :
    l.remove e = { l with list := l.list.erase e } := by
  unfold remove
  rw [if_neg h]

/-- Somebody stays chosen. -/
theorem choose_isSome (h : l.chosen.isSome) : (l.choose rank eligible).chosen.isSome := by
  unfold choose
  split
  · split
    · rename_i x _ _ _ _ _
      have hlen := List.length_insertRank rank x l.list
      cases hq : l.list.insertRank rank x with
      | nil => simp [hq] at hlen
      | cons y ys => rfl
    · exact h
  · exact h

/-- Somebody stays chosen. -/
theorem chooseAnother_isSome (h : l.chosen.isSome) :
    (l.chooseAnother rank eligible).chosen.isSome := by
  unfold chooseAnother
  split
  · split
    · rfl
    · exact h
  · exact h

/-! ## Order -/

/-- `insert()` keeps the order. -/
theorem insert_sorted (h : l.list.RankSorted rank) :
    (l.insert rank e).list.RankSorted rank := by
  unfold insert
  split
  · exact h.insertRank e
  · exact h

/-- `remove()` keeps the order. -/
theorem remove_sorted (h : l.list.RankSorted rank) : (l.remove e).list.RankSorted rank := by
  unfold remove
  split
  · exact h.tail
  · exact h.erase e

/-- `choose()` keeps the order. -/
theorem choose_sorted (h : l.list.RankSorted rank) :
    (l.choose rank eligible).list.RankSorted rank := by
  unfold choose
  split
  · split
    · exact (h.insertRank _).tail
    · exact h
  · exact h

/-- `choose_another()` keeps the order. -/
theorem chooseAnother_sorted (h : l.list.RankSorted rank) :
    (l.chooseAnother rank eligible).list.RankSorted rank := by
  unfold chooseAnother
  split
  · rename_i x y q hc hl
    split
    · rw [hl] at h
      exact h.tail.insertRank x
    · exact h
  · exact h

/-- `choose(e)` keeps the order. -/
theorem chooseElement_sorted (h : l.list.RankSorted rank) :
    (l.chooseElement rank e).list.RankSorted rank := by
  unfold chooseElement
  split
  · split
    · exact h
    · exact (h.insertRank _).erase e
  · exact h

/-! ## Urgency -/

/-- `choose` with an eligible head leaves a most urgent thread chosen. -/
theorem choose_urgent {h : Tid} {q : List Tid} (hs : l.list.RankSorted rank)
    (hc : l.chosen = some e) (hl : l.list = h :: q) (hel : eligible h) :
    ∃ y, (l.choose rank eligible).chosen = some y ∧ ∀ x ∈ l.toList, rank y ≤ rank x := by
  have hlen := List.length_insertRank rank e l.list
  cases hq : l.list.insertRank rank e with
  | nil => simp [hq] at hlen
  | cons y ys =>
    have hsort := hs.insertRank e
    rw [hq] at hsort
    refine ⟨y, ?_, fun x hx => hsort.head_le ?_⟩
    · simp only [choose, hc, hl, if_pos hel]
      rw [← hl, hq]
      rfl
    · rw [← hq, List.mem_insertRank]
      rw [mem_toList, hc, Option.some.injEq] at hx
      exact hx.imp_left Eq.symm

/-- `choose` keeps the chosen thread or takes an eligible head. -/
theorem choose_cases (hc : l.chosen = some e) {y : Tid}
    (hy : (l.choose rank eligible).chosen = some y) :
    y = e ∨ (l.list.head? = some y ∧ eligible y) := by
  unfold choose at hy
  split at hy
  · rename_i x h q hx hl
    rw [hc] at hx
    obtain rfl := Option.some.inj hx
    split at hy
    · rename_i hel
      rw [hl, List.insertRank_cons] at hy
      split at hy
      · right
        obtain rfl := Option.some.inj hy
        exact ⟨by rw [hl]; rfl, hel⟩
      · left
        exact (Option.some.inj hy).symm
    · left
      exact Option.some.inj (hy.symm.trans hc)
  · left
    exact Option.some.inj (hy.symm.trans hc)

/-- `choose_another()` keeps the chosen one or takes an eligible head. -/
theorem chooseAnother_cases (hc : l.chosen = some e) {y : Tid}
    (hy : (l.chooseAnother rank eligible).chosen = some y) :
    y = e ∨ (l.list.head? = some y ∧ eligible y) := by
  unfold chooseAnother at hy
  split at hy
  · rename_i x h q hx hl
    split at hy
    · rename_i hel
      right
      obtain rfl := Option.some.inj hy
      exact ⟨by rw [hl]; rfl, hel.1⟩
    · left
      exact Option.some.inj (hy.symm.trans hc)
  · left
    exact Option.some.inj (hy.symm.trans hc)

/-- `choose` keeps the chosen thread as long as no eligible head is as urgent. -/
theorem choose_chosen_iff (hc : l.chosen = some e) (he : e ∉ l.list) :
    (l.choose rank eligible).chosen = some e ↔
      ∀ x, l.list.head? = some x → eligible x → rank e < rank x := by
  unfold choose
  cases hl : l.list with
  | nil => simp [hc]
  | cons x q =>
    have hxe : x ≠ e := fun heq => he (by rw [hl, heq]; exact List.mem_cons_self)
    by_cases hel : eligible x
    · by_cases hle : rank x ≤ rank e
      · simp [hc, hel, List.insertRank_cons, hle, hxe, not_lt.mpr hle]
      · simp [hc, hel, List.insertRank_cons, hle, not_le.mp hle]
    · simp [hc, hel]

/-- Then it does not change the list either. -/
theorem choose_eq_of_chosen (hc : l.chosen = some e) (he : e ∉ l.list)
    (h : (l.choose rank eligible).chosen = some e) : l.choose rank eligible = l := by
  have hlt := (choose_chosen_iff hc he).mp h
  unfold choose
  split
  · rename_i e' x q hc' hl
    obtain rfl := Option.some.inj (hc.symm.trans hc')
    split
    · rename_i hel
      have hle : ¬rank x ≤ rank e := not_le.mpr (hlt x (by rw [hl]; rfl) hel)
      rw [hl, List.insertRank_cons, if_neg hle, ← hl]
      show SchedulingList.mk (some e) l.list = l
      rw [← hc]
    · rfl
  · rfl

/-- Where the list is empty or its head is not eligible, `choose` changes nothing. -/
theorem choose_eq_self (h : ∀ x q, l.list = x :: q → eligible x = false) :
    l.choose rank eligible = l := by
  unfold choose
  split
  · rename_i x y q hc hl
    rw [h y q hl, if_neg (by simp)]
  · rfl

/-- The chosen thread after a removal is a most urgent one of those that stay. -/
theorem remove_urgent (hs : l.list.RankSorted rank) (hc : l.chosen = some e)
    {y : Tid} (hy : (l.remove e).chosen = some y) : ∀ x ∈ l.list, rank y ≤ rank x := by
  rw [remove_chosen hc] at hy
  obtain ⟨q, hq⟩ := List.head?_eq_some_iff.mp hy
  rw [hq] at hs ⊢
  exact fun x hx => hs.head_le hx

/-- `choose_another` takes a most urgent listed thread, or keeps the chosen one. -/
theorem chooseAnother_urgent (hs : l.list.RankSorted rank) {y : Tid}
    (hy : (l.chooseAnother rank eligible).chosen = some y) :
    l.chosen = some y ∨ ∀ x ∈ l.list, rank y ≤ rank x := by
  unfold chooseAnother at hy
  split at hy
  · rename_i x h q hc hl
    split at hy
    · right
      obtain rfl : h = y := Option.some.inj hy
      rw [hl] at hs ⊢
      exact fun x hx => hs.head_le hx
    · exact .inl hy
  · exact .inl hy

end SchedulingList

end Epos
