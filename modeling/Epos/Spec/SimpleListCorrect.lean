import Epos.ForStd.List
import Epos.Kernel.SimpleList

/-!
# Singly-linked lists on well-formed lists

On a header that represents a list, every method of `Simple_List` succeeds and leaves
one that represents what it should, if `remove(e)` is given an element of the list and
the insertions one that is not. A removed element keeps its `next`.
-/

namespace Epos

namespace SimpleList

variable {α : Type*} {q q' : SimpleList α} {l l₁ l₂ : List α} {e p x y : α}

def Represents (q : SimpleList α) (l : List α) : Prop := l.HeadedBy q.next q.header

/-- `empty()` tells whether there are elements. -/
theorem Represents.empty_eq (h : q.Represents l) : q.empty = l.isEmpty := by
  unfold empty
  rw [h.size]
  cases l with
  | nil => rfl
  | cons x xs =>
    rw [List.length_cons, List.isEmpty_cons, beq_eq_false_iff_ne]
    omega

/-- `last()` tells whether there is one element. -/
theorem Represents.last_eq (h : q.Represents l) : q.last = (l.length == 1) := by
  unfold last
  rw [h.size, Bool.eq_iff_iff, beq_iff_eq, beq_iff_eq]
  omega

variable [DecidableEq α]

/-! ## Insertion -/

/-- The first element of an empty list. -/
theorem Represents.insertFirst (h : q.Represents []) : (q.insertFirst e).Represents [e] := by
  have hsize := h.size
  refine ⟨?_, rfl, rfl, Function.update_self _ _ _, trivial⟩
  show q.header.size + 1 = _
  rw [hsize]
  rfl

/-- `insert_head()` puts the element in front. -/
theorem Represents.insertHead (h : q.Represents l) (he : e ∉ l) :
    (q.insertHead e).Represents (e :: l) := by
  unfold SimpleList.insertHead
  rw [h.empty_eq]
  cases l with
  | nil => exact h.insertFirst
  | cons x xs =>
    rw [if_neg (by simp)]
    have hsize := h.size
    refine ⟨?_, rfl, h.tail, h.chained.insert [] he ?_ ?_⟩
    · show q.header.size + 1 = _
      simp only [hsize, List.length_cons]
      omega
    · exact (Function.update_self _ _ _).trans h.head
    · intro y hy
      simp [Function.update_of_ne hy]

/-- `insert_tail()` puts the element at the end. -/
theorem Represents.insertTail (h : q.Represents l) (he : e ∉ l) :
    ∃ q', q.insertTail e = some q' ∧ q'.Represents (l ++ [e]) := by
  unfold SimpleList.insertTail
  rw [h.empty_eq]
  cases hl : l.getLast? with
  | none =>
    obtain rfl := List.getLast?_eq_none_iff.mp hl
    exact ⟨_, rfl, h.insertFirst⟩
  -- x was the last, and its next link is written
  | some x =>
    have hmem : x ∈ l := List.mem_of_mem_getLast? hl
    have htail : q.header.tail = some x := h.tail.trans hl
    have hempty : l.isEmpty = false := by simpa using List.ne_nil_of_mem hmem
    have hsize := h.size
    have hch : (l ++ []).Chained q.next none := by
      rw [List.append_nil]
      exact h.chained
    simp only [hempty, Bool.false_eq_true, if_false, htail, Option.bind_eq_bind, Option.bind_some]
    refine ⟨_, rfl, ?_, ?_, by simp, hch.insert l (by simpa using he) ?_ ?_⟩
    · show q.header.size + 1 = _
      rw [hsize, List.length_append, List.length_singleton]
      omega
    · refine h.head.trans ?_
      cases l with
      | nil => cases hmem
      | cons y ys => rfl
    · exact Function.update_self _ _ _
    · intro y hy
      simp [Function.update_of_ne hy, Function.update_apply, hl, eq_comm]

/-- `insert()` puts the element between two neighbours. -/
theorem Represents.insertBetween (h : q.Represents (l₁ ++ x :: l₂)) (hp : l₁.getLast? = some p)
    (he : e ∉ l₁ ++ x :: l₂) : (q.insertBetween e p x).Represents (l₁ ++ e :: x :: l₂) := by
  have hsize := h.size
  refine ⟨?_, ?_, ?_, h.chained.insert _ he ?_ ?_⟩
  · show q.header.size + 1 = _
    rw [hsize]
    simp only [List.length_append, List.length_cons]
    omega
  · refine h.head.trans ?_
    cases l₁ with
    | nil => cases hp
    | cons y ys => rfl
  · refine h.tail.trans ?_
    rw [List.getLast?_append, List.getLast?_append, List.getLast?_cons_cons]
  · exact Function.update_self _ _ _
  · intro y hy
    simp [SimpleList.insertBetween, Function.update_of_ne hy, Function.update_apply, hp, eq_comm]

/-! ## Removal -/

omit [DecidableEq α] in
/-- `remove_head()` takes the first element off and keeps its link. -/
theorem Represents.removeHead (h : q.Represents l) :
    ∃ q', q.removeHead = some (l.head?, q') ∧ q'.Represents l.tail ∧ q'.next = q.next := by
  unfold SimpleList.removeHead
  rw [h.empty_eq, h.last_eq]
  cases l with
  | nil => exact ⟨q, rfl, h, rfl⟩
  | cons x xs =>
    have hhead : q.header.head = some x := h.head
    have hsize := h.size
    cases xs with
    | nil =>
      refine ⟨q.removeLast.2, congrArg some (Prod.ext hhead rfl), ⟨?_, rfl, rfl, trivial⟩, rfl⟩
      show q.header.size - 1 = _
      rw [hsize]
      rfl
    | cons y ys =>
      have hlast : ((x :: y :: ys).length == 1) = false := by simp
      simp only [List.isEmpty_cons, hlast, Bool.false_eq_true, if_false, hhead,
        Option.bind_eq_bind, Option.bind_some]
      refine ⟨_, rfl, ⟨?_, h.chained.1, h.tail, h.chained.2⟩, rfl⟩
      show q.header.size - 1 = _
      simp only [hsize, List.tail_cons, List.length_cons]
      omega

/-- The loop finds the element in front. -/
theorem findPrev_eq {next : α → Option α} {fuel : Nat}
    (h : (l₁ ++ p :: e :: l₂).Chained next none) (hx : (l₁ ++ [p]).head? = some x)
    (hfuel : l₁.length < fuel) : findPrev next e fuel x = some p := by
  induction l₁ generalizing x fuel with
  | nil =>
    obtain ⟨n, rfl⟩ := Nat.exists_eq_succ_of_ne_zero (Nat.ne_of_gt (Nat.zero_lt_of_lt hfuel))
    obtain rfl := Option.some.inj hx
    have hnext : next p = some e := h.1
    simp [findPrev, hnext]
  | cons y ys ih =>
    obtain ⟨n, rfl⟩ := Nat.exists_eq_succ_of_ne_zero (Nat.ne_of_gt (Nat.zero_lt_of_lt hfuel))
    obtain rfl := Option.some.inj hx
    rw [List.cons_append] at h
    -- the next element is in front of `e`
    obtain ⟨z, hz⟩ : ∃ z, (ys ++ [p]).head? = some z := by cases ys <;> exact ⟨_, rfl⟩
    have hnext : next y = some z := by
      have hhead : (ys ++ p :: e :: l₂).head? = (ys ++ [p]).head? := by cases ys <;> rfl
      refine h.1.trans ?_
      rw [Option.or_none, hhead, hz]
    have hze : z ≠ e := by
      intro heq
      have hmem : z ∈ ys ++ [p] := List.mem_of_mem_head? hz
      have hnd := (List.nodup_cons.mp h.nodup).2
      rw [List.append_cons] at hnd
      exact (List.nodup_append.mp hnd).2.2 z hmem e List.mem_cons_self heq
    simp only [findPrev, hnext, if_pos hze]
    exact ih h.2 hz (Nat.lt_of_succ_lt_succ hfuel)

/-- `remove()` takes the element off, given enough fuel. -/
theorem Represents.removeWithin {fuel : Nat} (h : q.Represents l) (he : e ∈ l)
    (hfuel : l.length ≤ fuel) :
    ∃ q', q.removeWithin fuel e = some q' ∧ q'.Represents (l.erase e) := by
  have hnd := h.nodup
  have hsize := h.size
  obtain ⟨l₁, l₂, rfl⟩ := List.append_of_mem he
  -- `e` splits the list, and the search stops at the element before it
  have he₁ : e ∉ l₁ := fun hmem =>
    (List.nodup_append.mp hnd).2.2 e hmem e List.mem_cons_self rfl
  have herase : (l₁ ++ e :: l₂).erase e = l₁ ++ l₂ := by
    rw [List.erase_append_right _ he₁, List.erase_cons_head]
  unfold SimpleList.removeWithin
  rw [herase, h.last_eq]
  by_cases hone : (l₁ ++ e :: l₂).length = 1
  · obtain ⟨rfl, rfl⟩ : l₁ = [] ∧ l₂ = [] := by
      simp only [List.length_append, List.length_cons] at hone
      exact ⟨List.length_eq_zero_iff.mp (by omega), List.length_eq_zero_iff.mp (by omega)⟩
    refine ⟨q.removeLast.2, rfl, ?_, rfl, rfl, trivial⟩
    show q.header.size - 1 = _
    rw [hsize]
    rfl
  · rw [if_neg (by rwa [beq_iff_eq])]
    cases hp : l₁.getLast? with
    | none =>
      obtain rfl := List.getLast?_eq_none_iff.mp hp
      obtain ⟨q', heq, hq', -⟩ := h.removeHead
      have hhead : q.header.head = some e := h.head
      rw [if_pos hhead, heq]
      exact ⟨q', rfl, hq'⟩
    | some p =>
      obtain ⟨as, rfl⟩ := List.getLast?_eq_some_iff.mp hp
      obtain ⟨x, hx⟩ : ∃ x, (as ++ [p]).head? = some x := by cases as <;> exact ⟨_, rfl⟩
      have hhead : q.header.head = some x := by
        refine h.head.trans ?_
        rw [List.head?_append, hx]
        rfl
      have hxe : x ≠ e := fun heq => he₁ (heq ▸ List.mem_of_mem_head? hx)
      have hch := h.chained
      rw [List.append_assoc, List.singleton_append] at hch
      have hfind : findPrev q.next e fuel x = some p := by
        apply findPrev_eq hch hx
        simp only [List.length_append, List.length_cons] at hfuel
        omega
      -- what is linked behind `e` is the head of the rest
      have hnext : q.next e = l₂.head? := by
        have hmid := (List.chained_append.mp hch).2.2.1
        rwa [Option.or_none] at hmid
      -- `e` is the last one exactly if there is no rest
      have hlast : q.header.tail = some e ↔ l₂ = [] := by
        have hnde := (List.nodup_cons.mp (List.nodup_append.mp hnd).2.1).1
        rw [h.tail, List.getLast?_append]
        cases l₂ with
        | nil => simp
        | cons y ys =>
          have hne : (y :: ys).getLast? ≠ some e := fun heq => hnde (List.mem_of_mem_getLast? heq)
          rw [List.getLast?_cons_cons]
          cases hys : (y :: ys).getLast? with
          | none => simp at hys
          | some z => simpa [hys] using hne
      simp only [hhead, Option.some.injEq, if_neg hxe, hfind, Option.bind_eq_bind, Option.bind_some]
      refine ⟨_, rfl, ?_, ?_, ?_, h.chained.remove ?_⟩
      · show q.header.size - 1 = _
        rw [hsize]
        simp only [List.length_append, List.length_cons]
        omega
      · show some x = _
        rw [List.head?_append, hx]
        rfl
      · show (if _ then _ else _) = _
        by_cases hl₂ : l₂ = []
        · rw [if_pos (hlast.mpr hl₂), hl₂, List.append_nil, hp]
        · rw [if_neg (mt hlast.mp hl₂), h.tail]
          cases l₂ with
          | nil => exact absurd rfl hl₂
          | cons y ys => rw [List.getLast?_append, List.getLast?_cons_cons, ← List.getLast?_append]
      · intro y _
        simp [Function.update_apply, hnext, eq_comm]

omit [DecidableEq α] in
/-- The fuel is enough for every list. -/
theorem Represents.length_le_findFuel (h : q.Represents l) : l.length ≤ q.findFuel := by
  unfold findFuel
  rw [h.size]
  exact Nat.le_add_right _ _

/-- `remove()` takes the element off. -/
theorem Represents.remove (h : q.Represents l) (he : e ∈ l) :
    ∃ q', q.remove e = some q' ∧ q'.Represents (l.erase e) :=
  h.removeWithin he h.length_le_findFuel

omit [DecidableEq α] in
/-- A removed element keeps its `next`, whatever it was removed from. -/
theorem removeHead_next {r : Option α} (heq : q.removeHead = some (r, q')) : q'.next = q.next := by
  unfold SimpleList.removeHead at heq
  split at heq
  · cases heq
    rfl
  · split at heq
    · cases heq
      rfl
    · obtain ⟨x, -, hx⟩ := Option.bind_eq_some_iff.mp heq
      cases hx
      rfl

/-- The removed element keeps its link. -/
theorem remove_next (heq : q.remove e = some q') : q'.next e = q.next e := by
  unfold SimpleList.remove SimpleList.removeWithin at heq
  split at heq
  · cases heq
    rfl
  · split at heq
    · obtain ⟨⟨r, q''⟩, hhead, rfl⟩ := Option.map_eq_some_iff.mp heq
      rw [removeHead_next hhead]
    · split at heq
      · cases heq
        rfl
      · obtain ⟨z, -, hz⟩ := Option.bind_eq_some_iff.mp heq
        cases hz
        show Function.update q.next z (q.next e) e = q.next e
        rw [Function.update_apply, ite_self]

/-- The loop stays in the list. -/
theorem findPrev_mem {next : α → Option α} {fuel : Nat} (h : (x :: l).Chained next none)
    (heq : findPrev next e fuel x = some p) : p ∈ x :: l := by
  induction l generalizing x fuel with
  | nil =>
    cases fuel with
    | zero => cases heq
    | succ fuel =>
      have hnext : next x = none := h.1
      simp only [findPrev, hnext, Option.some.injEq] at heq
      exact List.mem_singleton.mpr heq.symm
  | cons z zs ih =>
    cases fuel with
    | zero => cases heq
    | succ fuel =>
      have hnext : next x = some z := h.1
      simp only [findPrev, hnext] at heq
      split at heq
      · exact List.mem_cons_of_mem _ (ih h.2 heq)
      · cases heq
        exact List.mem_cons_self

/-- Only elements of the list are relinked by a removal. -/
theorem Represents.remove_next (h : q.Represents l) (heq : q.remove e = some q') (hy : y ∉ l) :
    q'.next y = q.next y := by
  unfold SimpleList.remove SimpleList.removeWithin at heq
  split at heq
  · cases heq
    rfl
  · split at heq
    · obtain ⟨⟨r, q''⟩, hhead, rfl⟩ := Option.map_eq_some_iff.mp heq
      rw [removeHead_next hhead]
    · split at heq
      · cases heq
        rfl
      · rename_i x hx
        obtain ⟨p, hp, hz⟩ := Option.bind_eq_some_iff.mp heq
        cases hz
        have hmem : p ∈ l := by
          have hhead := h.head.symm.trans hx
          obtain ⟨xs, rfl⟩ := List.head?_eq_some_iff.mp hhead
          exact findPrev_mem h.chained hp
        have hyp : y ≠ p := fun heq => hy (heq ▸ hmem)
        exact Function.update_of_ne hyp _ _

/-- Only elements of the list and the new one are relinked. -/
theorem Represents.insertTail_next (h : q.Represents l) (heq : q.insertTail e = some q')
    (hy : y ∉ l) (hye : y ≠ e) : q'.next y = q.next y := by
  unfold SimpleList.insertTail at heq
  split at heq
  · cases heq
    exact Function.update_of_ne hye _ _
  · obtain ⟨x, htail, hx⟩ := Option.bind_eq_some_iff.mp heq
    cases hx
    have hyx : y ≠ x := fun hyx => hy (hyx ▸ List.mem_of_mem_getLast? (h.tail.symm.trans htail))
    show Function.update (Function.update q.next x (some e)) e none y = q.next y
    rw [Function.update_of_ne hye, Function.update_of_ne hyx]

/-! ### The size after an operation on any list -/

/-- One element more. -/
theorem size_insertTail (heq : q.insertTail e = some q') :
    q'.header.size = q.header.size + 1 := by
  unfold SimpleList.insertTail at heq
  split at heq
  · cases heq
    rfl
  · obtain ⟨x, -, hx⟩ := Option.bind_eq_some_iff.mp heq
    cases hx
    rfl

/-- One element more. -/
theorem size_insertHead : (q.insertHead e).header.size = q.header.size + 1 := by
  unfold SimpleList.insertHead
  split <;> rfl

/-- Whether the element was in the list or not. -/
theorem size_remove (h : q.Represents l) (heq : q.remove e = some q') :
    q'.header.size = q.header.size - 1 := by
  unfold SimpleList.remove SimpleList.removeWithin at heq
  split at heq
  · cases heq
    rfl
  · split at heq
    · rename_i hhead
      obtain ⟨⟨r, q''⟩, hremove, rfl⟩ := Option.map_eq_some_iff.mp heq
      have hl : l ≠ [] := by
        rintro rfl
        cases h.head.symm.trans hhead
      unfold SimpleList.removeHead at hremove
      -- each branch takes one off the size, whatever was in the list
      rw [h.empty_eq, if_neg (by simpa using hl)] at hremove
      split at hremove
      · cases hremove
        rfl
      · obtain ⟨x, -, hx⟩ := Option.bind_eq_some_iff.mp hremove
        cases hx
        rfl
    · split at heq
      · cases heq
        rfl
      · obtain ⟨p, -, hp⟩ := Option.bind_eq_some_iff.mp heq
        cases hp
        rfl

end SimpleList

/-! ## `Simple_Ordered_List` -/

/-- Without relative ranks the loop writes none. -/
theorem walk_rank {α : Type*} [DecidableEq α] {next : α → Option α} {rank rank' : α → Int}
    {e x y : α} {prev prev' : Option α} {fuel : Nat}
    (heq : walk false next e fuel rank prev x = some (prev', y, rank')) : rank' = rank := by
  induction fuel generalizing x prev with
  | zero => cases heq
  | succ fuel ih =>
    unfold walk at heq
    split at heq
    · split at heq
      · exact ih heq
      · cases heq
        rfl
    · cases heq
      rfl

/-- The loop stops at the first larger rank or at the end. -/
theorem walk_absolute {α : Type*} [DecidableEq α] {next : α → Option α} (rank : α → Int)
    (e : α) {x : α} (prev : Option α) {xs : List α} {fuel : Nat} (h : (x :: xs).Chained next none)
    (hfuel : xs.length < fuel) :
    ∃ as y bs, x :: xs = as ++ y :: bs ∧
      walk false next e fuel rank prev x = some (as.getLast?.or prev, y, rank) ∧
      (∀ a ∈ as, rank a ≤ rank e) ∧ (rank y ≤ rank e → bs = []) := by
  -- induction on the elements still ahead of the walk
  induction xs generalizing x prev fuel with
  | nil =>
    obtain ⟨n, rfl⟩ := Nat.exists_eq_succ_of_ne_zero (Nat.ne_of_gt (Nat.zero_lt_of_lt hfuel))
    have hnext : next x = none := h.1
    refine ⟨[], x, [], rfl, ?_, by simp, fun _ => rfl⟩
    unfold walk
    rw [hnext, ite_self]
    rfl
  | cons z zs ih =>
    obtain ⟨n, rfl⟩ := Nat.exists_eq_succ_of_ne_zero (Nat.ne_of_gt (Nat.zero_lt_of_lt hfuel))
    have hnext : next x = some z := h.1
    unfold walk
    -- the walk goes past x
    by_cases hle : rank x ≤ rank e
    · obtain ⟨as, y, bs, heq, hwalk, has, hy⟩ := ih (some x) h.2
        (Nat.lt_of_succ_lt_succ hfuel)
      refine ⟨x :: as, y, bs, by rw [heq]; rfl, ?_, ?_, hy⟩
      · simp only [if_pos hle, hnext, Bool.false_eq_true, if_false, hwalk, List.getLast?_cons]
        cases as.getLast? <;> rfl
      · intro a ha
        cases List.mem_cons.mp ha with
        | inl heq => exact heq ▸ hle
        | inr ha => exact has a ha
    · -- the walk stops at x
      rw [if_neg hle]
      exact ⟨[], x, z :: zs, rfl, rfl, by simp, fun h => absurd h hle⟩

namespace SimpleOrderedList

variable {α : Type*} [DecidableEq α] {q q' : SimpleOrderedList α} {l : List α} {e : α}

/-- The ordered list inserts by rank, given enough fuel. -/
theorem insertWithin_absolute {fuel : Nat} (h : q.Represents l) (he : e ∉ l)
    (hfuel : l.length ≤ fuel) : ∃ q', q.insertWithin false fuel e = some q' ∧
      q'.Represents (l.insertRank q.rank e) ∧ q'.rank = q.rank := by
  unfold SimpleOrderedList.insertWithin
  rw [h.empty_eq]
  cases l with
  | nil => exact ⟨_, rfl, h.insertFirst, rfl⟩
  | cons x xs =>
    -- the walk reaches the first element with a later rank, or the last one
    have hhead : q.header.head = some x := h.head
    obtain ⟨as, y, bs, heq, hwalk, has, hy⟩ := walk_absolute q.rank e none h.chained hfuel
    rw [heq] at h he
    simp only [List.isEmpty_cons, Bool.false_eq_true, if_false, hhead, Option.bind_eq_bind,
      Option.bind_some, hwalk]
    rw [heq]
    by_cases hle : q.rank y ≤ q.rank e
    · obtain rfl := hy hle
      have hall : ∀ a ∈ as ++ [y], q.rank a ≤ q.rank e := by
        intro a ha
        cases List.mem_append.mp ha with
        | inl ha => exact has a ha
        | inr ha => exact List.mem_singleton.mp ha ▸ hle
      obtain ⟨q', hins, hq'⟩ := h.insertTail he
      rw [if_pos hle, List.insertRank_eq_append hall, hins]
      exact ⟨_, rfl, hq', rfl⟩
    · rw [if_neg hle, List.insertRank_append_cons has (not_le.mp hle), Option.or_none]
      cases hp : as.getLast? with
      | none =>
        obtain rfl := List.getLast?_eq_none_iff.mp hp
        exact ⟨_, rfl, h.insertHead he, rfl⟩
      | some p => exact ⟨_, rfl, h.insertBetween hp he, rfl⟩

/-- The ordered list inserts by rank. -/
theorem insert_absolute (h : q.Represents l) (he : e ∉ l) :
    ∃ q', q.insert false e = some q' ∧ q'.Represents (l.insertRank q.rank e) ∧
      q'.rank = q.rank :=
  insertWithin_absolute h he h.length_le_findFuel

/-- Whatever the list is, `insert(e)` writes no rank and counts the element. -/
theorem insert_eq (heq : q.insert false e = some q') :
    q'.rank = q.rank ∧ q'.header.size = q.header.size + 1 := by
  unfold SimpleOrderedList.insert SimpleOrderedList.insertWithin at heq
  split at heq
  · cases heq
    exact ⟨rfl, rfl⟩
  · obtain ⟨x, -, heq⟩ := Option.bind_eq_some_iff.mp heq
    obtain ⟨⟨prev, y, rank⟩, hwalk, heq⟩ := Option.bind_eq_some_iff.mp heq
    obtain rfl := walk_rank hwalk
    by_cases hle : q.rank y ≤ q.rank e
    · simp only [if_pos hle] at heq
      obtain ⟨L, hL, heq⟩ := Option.bind_eq_some_iff.mp heq
      cases heq
      exact ⟨rfl, SimpleList.size_insertTail hL⟩
    · simp only [if_neg hle] at heq
      cases prev with
      | none =>
        cases heq
        exact ⟨rfl, SimpleList.size_insertHead⟩
      | some p =>
        cases heq
        exact ⟨rfl, rfl⟩

end SimpleOrderedList

end Epos
