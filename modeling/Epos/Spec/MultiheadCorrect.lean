import Epos.Kernel.Multihead
import Epos.Spec.LinkedListCorrect

/-!
# One list for several heads

At the current head the methods of `Multihead_Scheduling_List` are those of
`Scheduling_List`, and they do what they are for. They look at no other head: an element
that is chosen there is taken for a listed one, and its links are stale. A head that has
no chosen element returns a null pointer to the list when it chooses.
-/

namespace Epos

namespace Multihead

variable {H : Nat} {m : Multihead H} {h h' : Fin H} {e x : Tid} {rank : Tid → Int}

/-- No element is chosen at two heads, or chosen and listed, or listed twice. -/
structure Exclusive (m : Multihead H) : Prop where
  apart : ∀ h e, m.chosen h = some e → e ∉ m.list
  unique : ∀ h h' e, m.chosen h = some e → m.chosen h' = some e → h = h'
  nodup : m.list.Nodup

/-- The elements as the head `h` sees them. -/
def current (m : Multihead H) (h : Fin H) : SchedulingList where
  chosen := m.chosen h
  list := m.list

def setHead (m : Multihead H) (h : Fin H) (a : SchedulingList) : Multihead H where
  chosen := Function.update m.chosen h a.chosen
  list := a.list

/-- Setting what is there changes nothing. -/
theorem setHead_current (m : Multihead H) (h : Fin H) : m.setHead h (m.current h) = m := by
  unfold setHead current
  rw [Function.update_eq_self]

/-- Seen from a head no thread comes twice. -/
theorem Exclusive.toList_nodup (hm : m.Exclusive) (h : Fin H) : (m.current h).toList.Nodup := by
  unfold SchedulingList.toList current
  cases hch : m.chosen h with
  | none => exact hm.nodup
  | some e => exact List.nodup_cons.mpr ⟨hm.apart h e hch, hm.nodup⟩

/-- A head that gets its elements from itself, the list and elements that were not there
    leaves all others theirs. -/
theorem Exclusive.setHead (hm : m.Exclusive) {a : SchedulingList} (hnd : a.toList.Nodup)
    (ha : ∀ x ∈ a.toList, x ∈ (m.current h).toList ∨ ¬ m.Has x) : (m.setHead h a).Exclusive := by
  -- who is chosen at another head is not in the new list
  have hother (j : Fin H) (hj : j ≠ h) (x : Tid) (hx : m.chosen j = some x) : x ∉ a.toList := by
    intro hmem
    cases ha x hmem with
    | inl hcur =>
      cases SchedulingList.mem_toList.mp hcur with
      | inl hch => exact hj (hm.unique j h x hx hch)
      | inr hl => exact hm.apart j x hx hl
    | inr hnot => exact hnot (.inl ⟨j, hx⟩)
  constructor
  · intro j x hx hmem
    by_cases hj : j = h
    · subst hj
      have hx' : a.chosen = some x := by simpa [Multihead.setHead] using hx
      exact SchedulingList.not_mem_list hnd hx' hmem
    · have hx' : m.chosen j = some x := by simpa [Multihead.setHead, hj] using hx
      exact hother j hj x hx' (SchedulingList.mem_toList_of_list hmem)
  · intro i j x hi hj
    by_cases hih : i = h
    · by_cases hjh : j = h
      · rw [hih, hjh]
      · subst hih
        have hx : a.chosen = some x := by simpa [Multihead.setHead] using hi
        have hx' : m.chosen j = some x := by simpa [Multihead.setHead, hjh] using hj
        exact absurd (SchedulingList.mem_toList_of_chosen hx) (hother j hjh x hx')
    · have hx : m.chosen i = some x := by simpa [Multihead.setHead, hih] using hi
      by_cases hjh : j = h
      · subst hjh
        have hx' : a.chosen = some x := by simpa [Multihead.setHead] using hj
        exact absurd (SchedulingList.mem_toList_of_chosen hx') (hother i hih x hx)
      · have hx' : m.chosen j = some x := by simpa [Multihead.setHead, hjh] using hj
        exact hm.unique i j x hx hx'
  · exact SchedulingList.list_nodup hnd

/-- The elements are only put in another order. -/
theorem Exclusive.setHead_perm (hm : m.Exclusive) {a : SchedulingList}
    (ha : a.toList.Perm (m.current h).toList) : (m.setHead h a).Exclusive :=
  hm.setHead (ha.nodup_iff.mpr (hm.toList_nodup h)) fun _ hx => .inl (ha.mem_iff.mp hx)

/-- What the list has after one head has changed. -/
theorem has_setHead {a : SchedulingList} :
    (m.setHead h a).Has x ↔ x ∈ a.toList ∨ ∃ j, j ≠ h ∧ m.chosen j = some x := by
  constructor
  · intro hx
    cases hx with
    | inl hch =>
      obtain ⟨j, hj⟩ := hch
      by_cases hjh : j = h
      · subst hjh
        have hx : a.chosen = some x := by simpa [Multihead.setHead] using hj
        exact .inl (SchedulingList.mem_toList_of_chosen hx)
      · exact .inr ⟨j, hjh, by simpa [Multihead.setHead, hjh] using hj⟩
    | inr hl => exact .inl (SchedulingList.mem_toList_of_list hl)
  · intro hx
    cases hx with
    | inl hmem =>
      cases SchedulingList.mem_toList.mp hmem with
      | inl hch => exact .inl ⟨h, by simpa [Multihead.setHead] using hch⟩
      | inr hl => exact .inr hl
    | inr hother =>
      obtain ⟨j, hj, hx⟩ := hother
      exact .inl ⟨j, by simpa [Multihead.setHead, hj] using hx⟩

/-- What the list has, seen from a head. -/
theorem has_iff_current (h : Fin H) :
    m.Has x ↔ x ∈ (m.current h).toList ∨ ∃ j, j ≠ h ∧ m.chosen j = some x := by
  rw [← has_setHead, setHead_current]

/-! ## The operations at the current head -/

/-- `insert()` acts on one head. -/
theorem insert_eq : m.insert h rank e = m.setHead h ((m.current h).insert rank e) := by
  unfold Multihead.insert SchedulingList.insert
  cases hch : m.chosen h with
  | none => simp [Multihead.setHead, current, hch]
  | some x =>
    have hupd : Function.update m.chosen h (some x) = m.chosen := by
      rw [← hch, Function.update_eq_self]
    simp [Multihead.setHead, current, hch, hupd]

/-- `remove()` acts on one head if the element is chosen at no other. -/
theorem remove_eq (hat : ∀ h', m.chosen h' = some e → h' = h) :
    m.remove e = m.setHead h ((m.current h).remove e) := by
  unfold Multihead.remove SchedulingList.remove
  by_cases hch : m.chosen h = some e
  · have hex : ∃ h, m.chosen h = some e := ⟨h, hch⟩
    have hchosen : (fun j => if m.chosen j = some e then m.list.head? else m.chosen j) =
        Function.update m.chosen h m.list.head? := by
      funext j
      by_cases hj : j = h
      · rw [hj, if_pos hch, Function.update_self]
      · rw [if_neg fun heq => hj (hat j heq), Function.update_of_ne hj]
    simp [Multihead.setHead, current, hch, hex, hchosen]
  · have hne (j : Fin H) : m.chosen j ≠ some e := fun heq => hch (hat j heq ▸ heq)
    simp [Multihead.setHead, current, hne]

/-- `choose()` acts on one head. -/
theorem choose_eq (hsome : (m.chosen h).isSome) :
    m.choose h rank = m.setHead h ((m.current h).choose rank fun _ => true) := by
  obtain ⟨x, hx⟩ := Option.isSome_iff_exists.mp hsome
  unfold Multihead.choose SchedulingList.choose returned
  cases hl : m.list with
  | nil => simp [Multihead.setHead, current, hx, hl]
  | cons y ys => simp [Multihead.setHead, current, hx, hl]

/-- Without listed elements every head keeps what it has. -/
theorem choose_nil (hl : m.list = []) : m.choose h rank = m := by
  have hkeep (l : List Tid) (hl : l = (m.chosen h).toList) :
      ({ chosen := Function.update m.chosen h l.head?, list := l.tail } : Multihead H) = m := by
    have hhead : l.head? = m.chosen h := by
      rw [hl]
      cases m.chosen h <;> rfl
    have htail : l.tail = m.list := by
      rw [hl, ‹m.list = []›]
      cases m.chosen h <;> rfl
    rw [hhead, htail, Function.update_eq_self]
  apply hkeep
  unfold returned
  rw [hl]
  cases m.chosen h <;> rfl

/-- `choose_another()` acts on one head. -/
theorem chooseAnother_eq (hsome : (m.chosen h).isSome) :
    m.chooseAnother h rank = m.setHead h ((m.current h).chooseAnother rank fun _ => true) := by
  obtain ⟨x, hx⟩ := Option.isSome_iff_exists.mp hsome
  have hkeep (hkeep : (m.current h).chooseAnother rank (fun _ => true) = m.current h) :
      m = m.setHead h ((m.current h).chooseAnother rank fun _ => true) := by
    rw [hkeep, setHead_current]
  unfold Multihead.chooseAnother
  -- nobody else is in the list
  cases hl : m.list with
  | nil =>
    apply hkeep
    unfold SchedulingList.chooseAnother current
    rw [hl, hx]
  | cons y ys =>
    show (if rank y = Priority.idle then m else _) = _
    -- only the idle thread is, and it is not chosen
    by_cases hy : rank y = Priority.idle
    · rw [if_pos hy]
      apply hkeep
      unfold SchedulingList.chooseAnother current
      rw [hl, hx]
      exact if_neg fun hne => hne.2 hy
    · -- the head of the list is chosen, and who was chosen goes back
      have hidle : (true = true) ∧ rank y ≠ Priority.idle := ⟨rfl, hy⟩
      unfold SchedulingList.chooseAnother current returned
      rw [hl, hx]
      show _ = m.setHead h (if (true = true) ∧ rank y ≠ Priority.idle then _ else _)
      rw [if_neg hy, if_pos hidle]
      rfl

/-- An idle thread in front is left there. -/
theorem chooseAnother_idle (hidle : ∀ x ∈ m.list.head?, rank x = Priority.idle) :
    m.chooseAnother h rank = m := by
  unfold Multihead.chooseAnother
  cases hl : m.list with
  | nil => rfl
  | cons y ys => exact if_pos (hidle y (by rw [hl]; rfl))

/-- `choose(e)` acts on one head if the element is chosen at no other. -/
theorem chooseElement_eq (hsome : (m.chosen h).isSome)
    (hat : ∀ h', m.chosen h' = some e → h' = h) :
    m.chooseElement h rank e = m.setHead h ((m.current h).chooseElement rank e) := by
  obtain ⟨x, hx⟩ := Option.isSome_iff_exists.mp hsome
  by_cases hxe : x = e
  · have hkeep : (m.current h).chooseElement rank e = m.current h := by
      unfold SchedulingList.chooseElement current
      rw [hx]
      exact if_pos hxe
    rw [hkeep, setHead_current]
    exact if_pos ⟨h, by rw [hx, hxe]⟩
  · have hne (j : Fin H) : m.chosen j ≠ some e := by
      intro heq
      obtain rfl := hat j heq
      exact hxe (Option.some.inj (hx.symm.trans heq))
    unfold Multihead.chooseElement SchedulingList.chooseElement
    simp [Multihead.setHead, current, returned, hx, hxe, hne]

end Multihead

namespace MultiheadSchedulingList

variable {H : Nat} {s s' : MultiheadSchedulingList H} {m : Multihead H} {h : Fin H} {e : Tid}
  {rank : Tid → Int}

structure Represents (s : MultiheadSchedulingList H) (m : Multihead H) : Prop where
  list : s.toLinkedList.Represents m.list
  chosen : s.chosen = m.chosen

/-- Each head represents its list. -/
theorem Represents.atHead (hs : s.Represents m) (h : Fin H) :
    (s.atHead h).Represents (m.current h) :=
  ⟨hs.list, congrFun hs.chosen h⟩

/-- Setting what is there changes nothing. -/
theorem setHead_atHead (s : MultiheadSchedulingList H) (h : Fin H) :
    s.setHead h (s.atHead h) = s := by
  unfold setHead atHead
  rw [Function.update_eq_self]

/-- A head may be replaced. -/
theorem Represents.setHead (hs : s.Represents m) {q : LinkedSchedulingList Tid}
    {a : SchedulingList} (hq : q.Represents a) : (s.setHead h q).Represents (m.setHead h a) := by
  constructor
  · exact hq.list
  · show Function.update s.chosen h q.chosen = Function.update m.chosen h a.chosen
    rw [hs.chosen, hq.chosen]

/-- An operation at one head, on the links. -/
theorem Represents.onHead (hs : s.Represents m)
    {f : LinkedSchedulingList Tid → Option (LinkedSchedulingList Tid)} {a : SchedulingList}
    {S : List Tid} (hf : ∃ q, f (s.atHead h) = some q ∧ (s.atHead h).Moves q a S) :
    ∃ s', s.onHead h f = some s' ∧ s'.Represents (m.setHead h a) := by
  obtain ⟨q, heq, hmoves⟩ := hf
  refine ⟨s.setHead h q, ?_, hs.setHead hmoves.represents⟩
  unfold MultiheadSchedulingList.onHead
  rw [heq, Option.map_some]

/-- On a list that has a head where it has elements, asking no elector is asking one that
    always agrees. -/
theorem Represents.choose_eq (hs : s.Represents m) :
    s.choose h rank = s.onHead h (·.choose rank fun _ => true) := by
  unfold MultiheadSchedulingList.choose MultiheadSchedulingList.onHead LinkedSchedulingList.choose
  show (if s.empty then _ else _) = Option.map _ (if s.empty then _ else _)
  by_cases hempty : s.empty
  · rw [if_pos hempty, if_pos hempty, Option.map_some]
    unfold MultiheadSchedulingList.setHead MultiheadSchedulingList.atHead
    rw [Function.update_eq_self]
  · rw [if_neg hempty, if_neg hempty]
    rw [hs.list.empty_eq] at hempty
    obtain ⟨x, xs, hl⟩ := List.exists_cons_of_ne_nil (by simpa using hempty)
    have hhead : s.header.head = some x := hs.list.head.trans (by rw [hl]; rfl)
    have hchosen : (s.atHead h).chosen = s.chosen h := rfl
    have hlist : (s.atHead h).toLinkedList = s.toLinkedList := rfl
    simp only [hchosen, hlist, hhead, Option.bind_eq_bind, Option.bind_some, if_true,
      Option.map_bind, Function.comp_def, Option.map_some]
    rfl

/-- With only the idle thread left nothing changes. -/
theorem Represents.chooseAnother_idle (hs : s.Represents m)
    (hidle : ∀ x ∈ m.list.head?, rank x = Priority.idle) : s.chooseAnother h rank = some s := by
  have hkeep : (s.atHead h).chooseAnother rank (fun _ => true) Priority.idle =
      some (s.atHead h) := by
    have hempty : (s.atHead h).empty = m.list.isEmpty := hs.list.empty_eq
    unfold LinkedSchedulingList.chooseAnother
    rw [hempty]
    cases hl : m.list with
    | nil => rfl
    | cons y ys =>
      have hhead : (s.atHead h).header.head = some y := hs.list.head.trans (by rw [hl]; rfl)
      have hy : rank y = Priority.idle := hidle y (by rw [hl]; rfl)
      simp [hhead, hy]
  show ((s.atHead h).chooseAnother rank (fun _ => true) Priority.idle).map (s.setHead h) = some s
  rw [hkeep, Option.map_some, setHead_atHead]

/-! ### Where something goes wrong -/

/-- The other heads keep their threads. -/
theorem onHead_chosen {f : LinkedSchedulingList Tid → Option (LinkedSchedulingList Tid)}
    {j : Fin H} (heq : s.onHead h f = some s') (hj : j ≠ h) : s'.chosen j = s.chosen j := by
  obtain ⟨q, -, rfl⟩ := Option.map_eq_some_iff.mp heq
  exact Function.update_of_ne hj _ _

/-- Without a chosen element `choose()` inserts a null pointer. -/
theorem Represents.choose_none (hs : s.Represents m) (hnone : m.chosen h = none)
    (hl : m.list ≠ []) : s.choose h rank = none := by
  have hempty : ¬ s.empty = true := by
    rw [hs.list.empty_eq]
    simpa using hl
  have hnone' : s.chosen h = none := (congrFun hs.chosen h).trans hnone
  unfold MultiheadSchedulingList.choose
  rw [if_neg hempty, hnone']
  rfl

/-- Without a chosen thread `choose_another()` dereferences null. -/
theorem Represents.chooseAnother_none (hs : s.Represents m) (hnone : m.chosen h = none)
    {x : Tid} (hx : x ∈ m.list.head?) (hidle : rank x ≠ Priority.idle) :
    s.chooseAnother h rank = none := by
  have hempty : (s.atHead h).empty = false := by
    refine hs.list.empty_eq.trans ?_
    cases hl : m.list with
    | nil => simp [hl] at hx
    | cons y ys => rfl
  have hhead : (s.atHead h).header.head = some x := hs.list.head.trans hx
  have hnone' : (s.atHead h).chosen = none := (congrFun hs.chosen h).trans hnone
  apply Option.map_eq_none_iff.mpr
  unfold LinkedSchedulingList.chooseAnother
  simp [hempty, hhead, hnone', hidle]

/-- What `choose(e)` leaves at the current head is `e`, wherever it was. -/
theorem chooseElement_chosen (heq : s.chooseElement h rank e = some s') :
    s'.chosen h = some e ∧ (s.chosen h).isSome := by
  obtain ⟨q, hq, rfl⟩ := Option.map_eq_some_iff.mp heq
  have hchosen : (s.setHead h q).chosen h = q.chosen := Function.update_self _ _ _
  rw [hchosen]
  have hq : (s.atHead h).chooseElement rank e = some q := hq
  unfold LinkedSchedulingList.chooseElement at hq
  split at hq
  · rename_i hch
    have hch' : s.chosen h = some e := hch
    cases hq
    exact ⟨hch, by rw [hch']; rfl⟩
  · obtain ⟨x, hx, hq⟩ := Option.bind_eq_some_iff.mp hq
    obtain ⟨q₁, -, hq⟩ := Option.bind_eq_some_iff.mp hq
    obtain ⟨q₂, -, hq⟩ := Option.bind_eq_some_iff.mp hq
    have hx' : s.chosen h = some x := hx
    cases hq
    exact ⟨rfl, by rw [hx']; rfl⟩

end MultiheadSchedulingList

/-! ## Calls -/

namespace HeadCall

variable {H : Nat} {s : MultiheadSchedulingList H} {m : Multihead H} {a : HeadCall H}

/-- The element that is removed or chosen is at no other head, and a head that gives its
    chosen element back to the list has one. -/
def AtHead (m : Multihead H) : HeadCall H → Prop
  | insert _ _ _ => True
  | remove h e => ∀ h', m.chosen h' = some e → h' = h
  | choose h _ => (m.chosen h).isSome ∨ m.list = []
  | chooseAnother h rank => (m.chosen h).isSome ∨ ∀ x ∈ m.list.head?, rank x = Priority.idle
  | chooseElement h _ e => (m.chosen h).isSome ∧ ∀ h', m.chosen h' = some e → h' = h

instance (m : Multihead H) : (a : HeadCall H) → Decidable (a.AtHead m)
  | insert _ _ _ => isTrue trivial
  | remove _ _ => inferInstanceAs (Decidable (∀ _, _))
  | choose _ _ => inferInstanceAs (Decidable (_ ∨ _))
  | chooseAnother _ _ => inferInstanceAs (Decidable (_ ∨ _))
  | chooseElement _ _ _ => inferInstanceAs (Decidable (_ ∧ _))

/-- The head at which the element is, if it is chosen at all, is the current one. -/
theorem mem_current {h : Fin H} {e : Tid} (he : m.Has e)
    (hat : ∀ h', m.chosen h' = some e → h' = h) : e ∈ (m.current h).toList := by
  cases he with
  | inl hch =>
    obtain ⟨j, hj⟩ := hch
    exact SchedulingList.mem_toList_of_chosen (hat j hj ▸ hj)
  | inr hl => exact SchedulingList.mem_toList_of_list hl

/-- Every operation, on the links. -/
theorem exec_correct (hs : s.Represents m) (hm : m.Exclusive) (ha : a.Allowed m)
    (hat : a.AtHead m) : ∃ s', a.exec s = some s' ∧ s'.Represents (a.apply m) := by
  cases a with
  | insert h rank e =>
    have he : e ∉ (m.current h).list := fun hmem => ha (.inr hmem)
    show ∃ s', s.insert h rank e = some s' ∧ s'.Represents (m.insert h rank e)
    rw [Multihead.insert_eq]
    exact hs.onHead ((hs.atHead h).insert he)
  | remove h e =>
    show ∃ s', s.remove h e = some s' ∧ s'.Represents (m.remove e)
    rw [Multihead.remove_eq hat]
    exact hs.onHead ((hs.atHead h).remove (mem_current ha hat))
  -- an empty list has nobody to choose, and the code returns at once
  | choose h rank =>
    show ∃ s', s.choose h rank = some s' ∧ s'.Represents (m.choose h rank)
    cases hat with
    | inl hsome =>
      rw [Multihead.choose_eq hsome, hs.choose_eq]
      exact hs.onHead ((hs.atHead h).choose hsome (hm.toList_nodup h))
    | inr hl =>
      have hempty : s.empty = true := hs.list.empty_eq.trans (by rw [hl]; rfl)
      rw [Multihead.choose_nil hl]
      exact ⟨s, if_pos hempty, hs⟩
  -- with only the idle thread chosen, chooseAnother() returns at once
  | chooseAnother h rank =>
    show ∃ s', s.chooseAnother h rank = some s' ∧ s'.Represents (m.chooseAnother h rank)
    cases hat with
    | inl hsome =>
      rw [Multihead.chooseAnother_eq hsome]
      exact hs.onHead ((hs.atHead h).chooseAnother hsome (hm.toList_nodup h))
    | inr hidle =>
      rw [Multihead.chooseAnother_idle hidle]
      exact ⟨s, hs.chooseAnother_idle hidle, hs⟩
  | chooseElement h rank e =>
    obtain ⟨hsome, hat⟩ := hat
    show ∃ s', s.chooseElement h rank e = some s' ∧ s'.Represents (m.chooseElement h rank e)
    rw [Multihead.chooseElement_eq hsome hat]
    exact hs.onHead ((hs.atHead h).chooseElement (mem_current ha hat) hsome (hm.toList_nodup h))

/-- Elements move between the current head, the list and the outside. -/
theorem apply_exclusive (hm : m.Exclusive) (ha : a.Allowed m) (hat : a.AtHead m) :
    (a.apply m).Exclusive := by
  cases a with
  | insert h rank e =>
    -- `e` is nowhere before, so it is not in the current list
    have hcur : e ∉ (m.current h).toList := by
      intro hmem
      exact ha ((SchedulingList.mem_toList.mp hmem).imp_left fun hch => ⟨h, hch⟩)
    have hperm : ((m.current h).insert rank e).toList.Perm _ := SchedulingList.insert_perm
    show (m.insert h rank e).Exclusive
    rw [Multihead.insert_eq]
    apply hm.setHead
    · exact hperm.nodup_iff.mpr (List.nodup_cons.mpr ⟨hcur, hm.toList_nodup h⟩)
    · intro x hx
      cases List.mem_cons.mp (hperm.mem_iff.mp hx) with
      | inl heq => exact .inr (heq ▸ ha)
      | inr hmem => exact .inl hmem
  | remove h e =>
    show (m.remove e).Exclusive
    rw [Multihead.remove_eq hat]
    apply hm.setHead
    · rw [SchedulingList.remove_toList]
      exact (hm.toList_nodup h).erase e
    · intro x hx
      rw [SchedulingList.remove_toList] at hx
      exact .inl (List.mem_of_mem_erase hx)
  | choose h rank =>
    show (m.choose h rank).Exclusive
    cases hat with
    | inl hsome =>
      rw [Multihead.choose_eq hsome]
      exact hm.setHead_perm SchedulingList.choose_perm
    | inr hl =>
      rw [Multihead.choose_nil hl]
      exact hm
  | chooseAnother h rank =>
    show (m.chooseAnother h rank).Exclusive
    cases hat with
    | inl hsome =>
      rw [Multihead.chooseAnother_eq hsome]
      exact hm.setHead_perm SchedulingList.chooseAnother_perm
    | inr hidle =>
      rw [Multihead.chooseAnother_idle hidle]
      exact hm
  | chooseElement h rank e =>
    show (m.chooseElement h rank e).Exclusive
    rw [Multihead.chooseElement_eq hat.1 hat.2]
    exact hm.setHead_perm (SchedulingList.chooseElement_perm (mem_current ha hat.2))

/-- A call puts in what it inserts, takes out what it removes and keeps all else. -/
def HasAfter (m : Multihead H) (x : Tid) : HeadCall H → Prop
  | insert _ _ e => x = e ∨ m.Has x
  | remove _ e => m.Has x ∧ x ≠ e
  | _ => m.Has x

/-- What the list has after an operation. -/
theorem has_apply (hm : m.Exclusive) (hat : a.AtHead m) (ha : a.Allowed m) (x : Tid) :
    (a.apply m).Has x ↔ a.HasAfter m x := by
  have hperm (h : Fin H) {l : SchedulingList} (hl : l.toList.Perm (m.current h).toList) :
      (m.setHead h l).Has x ↔ m.Has x := by
    rw [Multihead.has_setHead, Multihead.has_iff_current h, hl.mem_iff]
  cases a with
  | insert h rank e =>
    show (m.insert h rank e).Has x ↔ x = e ∨ m.Has x
    rw [Multihead.insert_eq, Multihead.has_setHead, Multihead.has_iff_current h,
      SchedulingList.insert_perm.mem_iff, List.mem_cons, or_assoc]
  | remove h e =>
    show (m.remove e).Has x ↔ m.Has x ∧ x ≠ e
    -- What another head has chosen is not removed.
    have hother (hx : ∃ j, j ≠ h ∧ m.chosen j = some x) : x ≠ e := by
      obtain ⟨j, hj, hx⟩ := hx
      intro heq
      exact hj (hat j (heq ▸ hx))
    rw [Multihead.remove_eq hat, Multihead.has_setHead, Multihead.has_iff_current h,
      SchedulingList.remove_toList, (hm.toList_nodup h).mem_erase_iff, or_and_right,
      and_comm (a := x ≠ e), and_iff_left_of_imp hother]
  | choose h rank =>
    cases hat with
    | inl hsome =>
      show (m.choose h rank).Has x ↔ _
      rw [Multihead.choose_eq hsome]
      exact hperm h SchedulingList.choose_perm
    | inr hl =>
      show (m.choose h rank).Has x ↔ m.Has x
      rw [Multihead.choose_nil hl]
  | chooseAnother h rank =>
    show (m.chooseAnother h rank).Has x ↔ m.Has x
    cases hat with
    | inl hsome =>
      rw [Multihead.chooseAnother_eq hsome]
      exact hperm h SchedulingList.chooseAnother_perm
    | inr hidle => rw [Multihead.chooseAnother_idle hidle]
  | chooseElement h rank e =>
    show (m.chooseElement h rank e).Has x ↔ _
    rw [Multihead.chooseElement_eq hat.1 hat.2]
    exact hperm h (SchedulingList.chooseElement_perm (mem_current ha hat.2))

/-- Otherwise a call dereferences a null pointer, or it leaves an element with a head that
    should not have it. -/
theorem exec_fails (hs : s.Represents m) (hm : m.Exclusive) (hat : ¬ a.AtHead m) :
    ¬ ∃ s', a.exec s = some s' ∧ s'.Represents (a.apply m) := by
  intro ⟨s', heq, hs'⟩
  cases a with
  | insert h rank e => exact hat trivial
  | remove h e =>
    -- The head that has `e` keeps it.
    obtain ⟨j, hj⟩ := not_forall.mp hat
    obtain ⟨hch, hne⟩ := Classical.not_imp.mp hj
    have heq : s.onHead h (·.remove e) = some s' := heq
    have hkept : s'.chosen j = some e := by
      rw [MultiheadSchedulingList.onHead_chosen heq hne, hs.chosen, hch]
    have hgone : s'.chosen j = m.list.head? := (congrFun hs'.chosen j).trans (if_pos hch)
    exact hm.apart j e hch (List.mem_of_mem_head? (hgone.symm.trans hkept))
  | choose h rank =>
    obtain ⟨hnone, hl⟩ := not_or.mp hat
    have hfail : s.choose h rank = none :=
      hs.choose_none (Option.not_isSome_iff_eq_none.mp hnone) hl
    cases hfail.symm.trans heq
  | chooseAnother h rank =>
    obtain ⟨hnone, hidle⟩ := not_or.mp hat
    obtain ⟨x, hx⟩ := not_forall.mp hidle
    obtain ⟨hx, hne⟩ := Classical.not_imp.mp hx
    have hfail := hs.chooseAnother_none (Option.not_isSome_iff_eq_none.mp hnone) hx hne
    cases hfail.symm.trans heq
  | chooseElement h rank e =>
    obtain ⟨hchosen, hsome⟩ := MultiheadSchedulingList.chooseElement_chosen heq
    rw [hs.chosen] at hsome
    obtain ⟨j, hj⟩ := not_forall.mp fun hall => hat ⟨hsome, hall⟩
    obtain ⟨hch, hne⟩ := Classical.not_imp.mp hj
    have hsame : m.chooseElement h rank e = m := if_pos ⟨j, hch⟩
    have hch' : m.chosen h = some e := by
      rw [← hchosen, hs'.chosen]
      exact congrArg (Multihead.chosen · h) hsame.symm
    exact hne (hm.unique j h e hch hch')

end HeadCall

/-! ## Runs -/

namespace MultiheadRun

variable {H : Nat} {r : MultiheadRun H} {a : HeadCall H} {as : List (HeadCall H)}

/-- The list has the elements that it should have, each of them once. -/
def Sound (r : MultiheadRun H) : Prop :=
  ∃ s, r.code = some s ∧ s.Represents r.elements ∧ r.elements.Exclusive

/-- The list is sound at the beginning. -/
theorem sound_init (h : (multiheadSystem H).Init r) : r.Sound := by
  obtain ⟨helements, s, hcode, hheader, hchosen⟩ := h
  refine ⟨s, hcode, ?_, ?_⟩
  · rw [helements]
    refine ⟨⟨?_, ?_, ?_, trivial⟩, funext hchosen⟩
    · rw [hheader]
      rfl
    · rw [hheader]
      rfl
    · rw [hheader]
      rfl
  · rw [helements]
    exact ⟨fun h e he => (Option.some_ne_none e he.symm).elim,
      fun h h' e he => (Option.some_ne_none e he.symm).elim, .nil⟩

/-- A step keeps it sound exactly if its element is at its own head. -/
theorem sound_step (h : r.Sound) (ha : (multiheadSystem H).Enabled r a) :
    ((multiheadSystem H).next r a).Sound ↔ a.AtHead r.elements := by
  obtain ⟨s, hcode, hs, hm⟩ := h
  have hnext : ((multiheadSystem H).next r a).code = a.exec s := by
    show r.code.bind _ = _
    rw [hcode, Option.bind_some]
  constructor
  · intro ⟨s', heq, hs', _⟩
    by_contra hat
    exact a.exec_fails hs hm hat ⟨s', hnext.symm.trans heq, hs'⟩
  · intro hat
    obtain ⟨s', heq, hs'⟩ := HeadCall.exec_correct hs hm ha hat
    exact ⟨s', hnext.trans heq, hs', HeadCall.apply_exclusive hm ha hat⟩

/-- The call does to the set of all elements what its name says. -/
def Conserving (r : MultiheadRun H) (a : HeadCall H) : Prop :=
  ∀ x, ((multiheadSystem H).next r a).elements.Has x ↔ a.HasAfter r.elements x

/-- All along a run the list has exactly the elements that the calls put, left and chose
    there if and only if every call finds its element and its head as it needs them. -/
theorem multihead_sound_iff (hinit : (multiheadSystem H).Init r)
    (hv : (multiheadSystem H).Valid r as) :
    (multiheadSystem H).Always Sound r as ∧ (multiheadSystem H).Meets Conserving r as ↔
      (multiheadSystem H).Meets (fun r a => a.AtHead r.elements) r as := by
  apply TransitionSystem.always_and_meets_iff (I := Sound)
  · intro r h
    exact h
  · intro r a h ha hat
    exact (sound_step h ha).mpr hat
  · intro r a h ha
    constructor
    · intro ⟨hsound, _⟩
      exact (sound_step h ha).mp hsound
    · intro hat
      obtain ⟨-, -, -, hm⟩ := id h
      exact ⟨(sound_step h ha).mpr hat, HeadCall.has_apply hm hat ha⟩
  · exact sound_init hinit
  · exact hv

/-- An empty list for two heads. -/
def start : MultiheadRun 2 where
  code := some { links := ⟨fun _ => none, fun _ => none⟩, header := {}, chosen := fun _ => none }
  elements := ⟨fun _ => none, []⟩

/-- The list of the example is empty. -/
theorem start_init : (multiheadSystem 2).Init start := ⟨rfl, _, rfl, rfl, fun _ => rfl⟩

instance (r : MultiheadRun H) (a : HeadCall H) : Decidable ((multiheadSystem H).Enabled r a) :=
  inferInstanceAs (Decidable (a.Allowed r.elements))

/-- `5` and `6` are chosen, `7` and `8` listed; `7` takes the place of `6`, and `5` is
    removed where it is chosen. -/
theorem multihead_sound_example : (multiheadSystem 2).Always Sound start
    [.insert 0 (fun _ => 2) 5, .insert 1 (fun _ => 2) 6, .insert 0 (fun _ => 2) 7,
      .insert 1 (fun _ => 2) 8, .chooseElement 1 (fun _ => 2) 7, .remove 0 5,
      .chooseAnother 1 (fun _ => 2)] :=
  ((multihead_sound_iff start_init (by decide)).mpr (by decide)).1

/-- `5` is chosen at the head `0`. When the head `1` removes it, the list loses its only
    element `7`, and `5` stays where it is. -/
theorem not_multihead_sound : ¬ ∀ (H : Nat) (r : MultiheadRun H) (as : List (HeadCall H)),
    (multiheadSystem H).Init r → (multiheadSystem H).Valid r as →
      (multiheadSystem H).Always Sound r as := by
  intro hall
  have hrun := (hall 2 start [.insert 0 (fun _ => 2) 5, .insert 1 (fun _ => 2) 6,
    .insert 0 (fun _ => 2) 7, .remove 1 5] start_init (by decide)).last
  obtain ⟨s, hcode, hs, -⟩ := hrun
  have hkept : s.chosen 0 = some 5 := by
    cases hcode
    rfl
  cases hkept.symm.trans (congrFun hs.chosen 0)

end MultiheadRun

end Epos
