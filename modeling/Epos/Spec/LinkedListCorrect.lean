import Epos.Kernel.LinkedList
import Epos.Spec.SchedulingListCorrect

/-!
# The methods of `utility/list.h` on well-formed lists

On a header that represents a list, with links to match, every method succeeds and
leaves a header that represents what the list-level operation of
`Epos.Kernel.SchedulingList` makes of the list. Only the links of the listed
elements and of the inserted one are written.
-/

namespace Epos

namespace LinkedList

variable {α : Type*} {q q' : LinkedList α} {l l' l₁ l₂ S : List α} {e p x y : α}

def Represents (q : LinkedList α) (l : List α) : Prop :=
  q.links.Represents q.header l

/-- `q'` represents `l`, and it has the links of `q` outside `S`. -/
structure Moves (q q' : LinkedList α) (l S : List α) : Prop where
  represents : q'.Represents l
  eqOff : q.links.EqOff q'.links S

/-- What moves inside of a part moves inside of the whole. -/
theorem Moves.mono (h : q.Moves q' l S) (hS : S ⊆ l') : q.Moves q' l l' :=
  ⟨h.represents, h.eqOff.mono hS⟩

/-- Two changes are one. -/
theorem Moves.trans {q'' : LinkedList α} (h : q.Moves q' l S) (h' : q'.Moves q'' l' S) :
    q.Moves q'' l' S :=
  ⟨h'.represents, h.eqOff.trans h'.eqOff⟩

/-- `empty()` tells whether there are elements. -/
theorem Represents.empty_eq (h : q.Represents l) : q.empty = l.isEmpty := by
  unfold empty
  rw [h.size]
  cases l with
  | nil => rfl
  | cons x xs =>
    rw [List.length_cons, List.isEmpty_cons, beq_eq_false_iff_ne]
    omega

/-- `last()` tells whether there is one element. -/
theorem Represents.last_eq (h : q.Represents l) : q.last = (l.length == 1) := by
  unfold last
  rw [h.size, Bool.eq_iff_iff, beq_iff_eq, beq_iff_eq]
  omega

variable [DecidableEq α]

/-! ## Insertion -/

/-- An element that is linked in between two parts. -/
theorem Represents.insertAt (l₁ l₂ : List α) (h : q.Represents (l₁ ++ l₂)) (he : e ∉ l₁ ++ l₂)
    (hin : q.links.LinksIn q'.links l₁ e l₂) (hsize : q'.header.size = q.header.size + 1)
    (hhead : q'.header.head = (l₁ ++ [e]).head?) (htail : q'.header.tail = (e :: l₂).getLast?) :
    q.Moves q' (l₁ ++ e :: l₂) (e :: (l₁ ++ l₂)) := by
  have hlen := h.size
  constructor
  · refine ⟨?_, ?_, ?_, h.linked.insert he hin⟩
    · rw [hsize, hlen]
      simp only [List.length_append, List.length_cons]
      omega
    · rw [hhead]
      cases l₁ <;> rfl
    · rw [htail, List.getLast?_append]
      cases hl : (e :: l₂).getLast? with
      | none => simp at hl
      | some x => rfl
  · exact hin.eqOff.mono fun x hx => by simpa [or_left_comm] using hx

/-- The first element of an empty list. -/
theorem Represents.insertFirst (h : q.Represents []) : q.Moves (q.insertFirst e) [e] [e] := by
  apply h.insertAt [] [] (by simp) _ rfl rfl rfl
  constructor <;> simp +contextual [LinkedList.insertFirst]

/-- `insert_head()` puts the element in front. -/
theorem Represents.insertHead (h : q.Represents l) (he : e ∉ l) :
    ∃ q', q.insertHead e = some q' ∧ q.Moves q' (e :: l) (e :: l) := by
  unfold LinkedList.insertHead
  rw [h.empty_eq]
  cases l with
  | nil => exact ⟨_, rfl, h.insertFirst⟩
  | cons x xs =>
    have hx : x ≠ e := fun heq => he (heq ▸ List.mem_cons_self)
    have hhead : q.header.head = some x := h.head
    simp only [List.isEmpty_cons, Bool.false_eq_true, if_false, hhead, Option.bind_eq_bind,
      Option.bind_some]
    refine ⟨_, rfl, h.insertAt [] (x :: xs) he ?_ rfl rfl h.tail⟩
    constructor <;> simp +contextual [hx.symm, eq_comm]

/-- `insert_tail()` puts the element at the end. -/
theorem Represents.insertTail (h : q.Represents l) (he : e ∉ l) :
    ∃ q', q.insertTail e = some q' ∧ q.Moves q' (l ++ [e]) (e :: l) := by
  unfold LinkedList.insertTail
  rw [h.empty_eq]
  cases hl : l.getLast? with
  | none =>
    obtain rfl := List.getLast?_eq_none_iff.mp hl
    exact ⟨_, rfl, h.insertFirst⟩
  | some x =>
    have hmem : x ∈ l := List.mem_of_mem_getLast? hl
    have hx : x ≠ e := fun heq => he (heq ▸ hmem)
    have htail : q.header.tail = some x := h.tail.trans hl
    have hempty : l.isEmpty = false := by simpa using List.ne_nil_of_mem hmem
    simp only [hempty, Bool.false_eq_true, if_false, htail, Option.bind_eq_bind, Option.bind_some]
    rw [← List.append_nil l] at h he
    refine ⟨_, rfl, (h.insertAt l [] he ?_ rfl ?_ rfl).mono (by simp)⟩
    · constructor <;> simp +contextual [hl, eq_comm]
    · refine h.head.trans ?_
      cases l with
      | nil => cases hmem
      | cons y ys => rfl

/-- `insert()` puts the element between two neighbours. -/
theorem Represents.insertBetween {p x : α} (h : q.Represents (l₁ ++ x :: l₂))
    (hp : l₁.getLast? = some p) (he : e ∉ l₁ ++ x :: l₂) :
    q.Moves (q.insertBetween e p x) (l₁ ++ e :: x :: l₂) (e :: (l₁ ++ x :: l₂)) := by
  have hpmem : p ∈ l₁ := List.mem_of_mem_getLast? hp
  have hpe : p ≠ e := fun heq => he (by simp [← heq, hpmem])
  have hxe : x ≠ e := fun heq => he (by simp [heq])
  have hhead : (q.insertBetween e p x).header.head = (l₁ ++ [e]).head? := by
    refine h.head.trans ?_
    cases l₁ with
    | nil => cases hpmem
    | cons y ys => rfl
  have htail : (q.insertBetween e p x).header.tail = (e :: x :: l₂).getLast? := by
    refine h.tail.trans ?_
    rw [List.getLast?_append, List.getLast?_cons_cons]
    cases hl : (x :: l₂).getLast? with
    | none => simp at hl
    | some y => rfl
  apply h.insertAt l₁ (x :: l₂) he _ rfl hhead htail
  constructor <;> simp +contextual [LinkedList.insertBetween, hp, eq_comm]

/-! ### Ordered insertion -/

omit [DecidableEq α] in
/-- The loop stops at the first larger rank or at the end. -/
theorem scan_eq (rank : α → Int) {L : Links α} {prev : Option α} {xs : List α} {fuel : Nat}
    (h : L.Linked prev (x :: xs) none) (hfuel : xs.length < fuel) :
    ∃ as y bs, x :: xs = as ++ y :: bs ∧ scan rank L e fuel x = some y ∧
      (∀ a ∈ as, rank a ≤ rank e) ∧ (rank y ≤ rank e → bs = []) := by
  -- induction on the elements still ahead of the scan
  induction xs generalizing x prev fuel with
  | nil =>
    obtain ⟨n, rfl⟩ := Nat.exists_eq_succ_of_ne_zero (Nat.ne_of_gt (Nat.zero_lt_of_lt hfuel))
    have hnext : L.next x = none := h.2.1
    refine ⟨[], x, [], rfl, ?_, by simp, fun _ => rfl⟩
    unfold scan
    rw [hnext, ite_self]
  | cons z zs ih =>
    obtain ⟨n, rfl⟩ := Nat.exists_eq_succ_of_ne_zero (Nat.ne_of_gt (Nat.zero_lt_of_lt hfuel))
    have hnext : L.next x = some z := h.2.1
    unfold scan
    -- the scan goes past x
    by_cases hle : rank x ≤ rank e
    · rw [if_pos hle, hnext]
      obtain ⟨as, y, bs, heq, hscan, has, hy⟩ := ih h.2.2 (Nat.lt_of_succ_lt_succ hfuel)
      refine ⟨x :: as, y, bs, by rw [heq]; rfl, hscan, ?_, hy⟩
      intro a ha
      cases List.mem_cons.mp ha with
      | inl heq => exact heq ▸ hle
      | inr ha => exact has a ha
    · -- the scan stops at x
      rw [if_neg hle]
      exact ⟨[], x, z :: zs, rfl, rfl, by simp, fun h => absurd h hle⟩

/-- The ordered list inserts by rank, given enough fuel. -/
theorem Represents.orderedInsertWithin (rank : α → Int) {fuel : Nat} (h : q.Represents l) (he : e ∉ l)
    (hfuel : l.length ≤ fuel) : ∃ q', q.orderedInsertWithin rank fuel e = some q' ∧
      q.Moves q' (l.insertRank rank e) (e :: l) := by
  unfold LinkedList.orderedInsertWithin
  rw [h.empty_eq]
  cases l with
  | nil => exact ⟨_, rfl, h.insertFirst⟩
  | cons x xs =>
    have hhead : q.header.head = some x := h.head
    -- the scan stops at the first element that is behind, or at the last one
    obtain ⟨as, y, bs, heq, hscan, has, hy⟩ := scan_eq rank (e := e) h.linked hfuel
    simp only [List.isEmpty_cons, Bool.false_eq_true, if_false, hhead, Option.bind_eq_bind,
      Option.bind_some, hscan]
    rw [heq] at h he ⊢
    -- all are in front, so the element becomes the tail
    by_cases hle : rank y ≤ rank e
    · obtain rfl := hy hle
      have hall : ∀ a ∈ as ++ [y], rank a ≤ rank e := by
        intro a ha
        cases List.mem_append.mp ha with
        | inl ha => exact has a ha
        | inr ha => exact List.mem_singleton.mp ha ▸ hle
      rw [if_pos hle, List.insertRank_eq_append hall]
      exact h.insertTail he
    · have hprev : q.links.prev y = as.getLast? := by
        have := (Links.linked_append.mp h.linked).2.1
        rwa [Option.or_none] at this
      rw [if_neg hle, List.insertRank_append_cons has (not_le.mp hle), hprev]
      -- the first element that is behind may be the head
      cases hp : as.getLast? with
      | none =>
        obtain rfl := List.getLast?_eq_none_iff.mp hp
        exact h.insertHead he
      | some p => exact ⟨_, rfl, h.insertBetween hp he⟩

omit [DecidableEq α] in
/-- A search finds what there is to find in the list. -/
theorem findFrom_eq {next : α → Option α} {p : α → Bool} {fuel : Nat} (h : l.Chained next none)
    (hfuel : l.length ≤ fuel) : findFrom next p fuel l.head? = some (l.find? p) := by
  induction l generalizing fuel with
  | nil => simp [findFrom]
  | cons x xs ih =>
    obtain ⟨n, rfl⟩ := Nat.exists_eq_succ_of_ne_zero (Nat.ne_of_gt (Nat.zero_lt_of_lt hfuel))
    have hnext : next x = xs.head? := by rw [h.1, Option.or_none]
    rw [List.head?_cons, findFrom, List.find?_cons]
    cases p x with
    | true => rfl
    | false =>
      rw [hnext, ih h.2 (Nat.le_of_succ_le_succ hfuel)]
      rfl

omit [DecidableEq α] in
/-- The fuel is enough for every list. -/
theorem Represents.length_le_scanFuel (h : q.Represents l) : l.length ≤ q.scanFuel := by
  unfold scanFuel
  rw [h.size]
  exact Nat.le_add_right _ _

/-- The ordered list inserts by rank. -/
theorem Represents.orderedInsert (rank : α → Int) (h : q.Represents l) (he : e ∉ l) :
    ∃ q', q.orderedInsert rank e = some q' ∧ q.Moves q' (l.insertRank rank e) (e :: l) :=
  h.orderedInsertWithin rank he h.length_le_scanFuel

/-! ### Insertion into any list

Whatever an element is inserted into, if the result is a list then the element is
in it. -/

omit [DecidableEq α] in
/-- The head is an element. -/
theorem mem_of_head (h : q.Represents l) (hx : q.header.head = some x) : x ∈ l :=
  List.mem_of_mem_head? (h.head.symm.trans hx)

omit [DecidableEq α] in
/-- The tail is an element. -/
theorem mem_of_tail (h : q.Represents l) (hx : q.header.tail = some x) : x ∈ l :=
  List.mem_of_mem_getLast? (h.tail.symm.trans hx)

/-- An element that was inserted in front is in the list. -/
theorem mem_of_insertHead (heq : q.insertHead e = some q') (h : q'.Represents l) : e ∈ l := by
  unfold LinkedList.insertHead at heq
  split at heq
  · cases heq
    exact mem_of_head h rfl
  · obtain ⟨x, -, hx⟩ := Option.bind_eq_some_iff.mp heq
    cases hx
    exact mem_of_head h rfl

/-- An element that was inserted at the end is in the list. -/
theorem mem_of_insertTail (heq : q.insertTail e = some q') (h : q'.Represents l) : e ∈ l := by
  unfold LinkedList.insertTail at heq
  split at heq
  · cases heq
    exact mem_of_head h rfl
  · obtain ⟨x, -, hx⟩ := Option.bind_eq_some_iff.mp heq
    cases hx
    exact mem_of_tail h rfl

/-- The elements that the loop passes are in the list, or the way to them leads over the
    inserted element. -/
theorem scan_mem {rank : α → Int} {fuel : Nat} {n y : α}
    (h : (q.insertBetween e p n).Represents l) (hx : x ∈ l)
    (hscan : scan rank q.links e fuel x = some y) : y ∈ l ∨ e ∈ l := by
  -- induction on the steps of the scan
  induction fuel generalizing x with
  | zero => cases hscan
  | succ fuel ih =>
    unfold scan at hscan
    split at hscan
    · split at hscan
      · rename_i z hz
        -- the links written by the insertion are those of e and p only
        have hnext : (q.insertBetween e p n).links.next x =
            if x = e then some n else if x = p then some e else q.links.next x := by
          simp [LinkedList.insertBetween]
        by_cases hxe : x = e
        · exact .inr (hxe ▸ hx)
        · rw [if_neg hxe] at hnext
          by_cases hxp : x = p
          · rw [if_pos hxp] at hnext
            exact .inr (h.linked.next_mem hx hnext)
          · rw [if_neg hxp, hz] at hnext
            exact ih (h.linked.next_mem hx hnext) hscan
      · cases hscan
        exact .inl hx
    · cases hscan
      exact .inl hx

/-- The three places at which the loop lets an element in. -/
theorem orderedInsert_cases {rank : α → Int} (heq : q.orderedInsert rank e = some q') :
    q.empty ∧ q' = q.insertFirst e ∨
    q.empty = false ∧ ∃ x y fuel, q.header.head = some x ∧
      scan rank q.links e fuel x = some y ∧
      (q.insertTail e = some q' ∨ q.links.prev y = none ∧ q.insertHead e = some q' ∨
        ∃ p, q.links.prev y = some p ∧ q' = q.insertBetween e p y) := by
  unfold LinkedList.orderedInsert LinkedList.orderedInsertWithin at heq
  split at heq
  · rename_i hempty
    cases heq
    exact .inl ⟨hempty, rfl⟩
  · rename_i hempty
    obtain ⟨x, hhead, heq⟩ := Option.bind_eq_some_iff.mp heq
    obtain ⟨y, hscan, heq⟩ := Option.bind_eq_some_iff.mp heq
    refine .inr ⟨Bool.eq_false_iff.mpr hempty, x, y, _, hhead, hscan, ?_⟩
    split at heq
    · exact .inl heq
    · split at heq
      · rename_i hp
        exact .inr (.inl ⟨hp, heq⟩)
      · rename_i p hp
        cases heq
        exact .inr (.inr ⟨p, hp, rfl⟩)

/-- An element that was inserted by rank is in the list. -/
theorem mem_of_orderedInsert {rank : α → Int} (heq : q.orderedInsert rank e = some q')
    (h : q'.Represents l) : e ∈ l := by
  obtain ⟨-, rfl⟩ | ⟨-, x, y, fuel, hhead, hscan, hcase⟩ := orderedInsert_cases heq
  · exact mem_of_head h rfl
  · obtain htail | ⟨-, hins⟩ | ⟨p, hp, rfl⟩ := hcase
    · exact mem_of_insertTail htail h
    · exact mem_of_insertHead hins h
    · cases scan_mem h (mem_of_head h hhead) hscan with
      | inl hy =>
        by_cases hye : y = e
        · exact hye ▸ hy
        · have hprev : (q.insertBetween e p y).links.prev y = some e := by
            simp [LinkedList.insertBetween, hye]
          exact (h.linked.prev_mem hy hprev).resolve_right (by simp)
      | inr he => exact he

/-- The head stays when an element comes behind it. -/
theorem insertTail_head (heq : q.insertTail e = some q') (hempty : q.empty = false) :
    q'.header.head = q.header.head := by
  unfold LinkedList.insertTail at heq
  rw [hempty, if_neg Bool.false_ne_true] at heq
  obtain ⟨x, -, hx⟩ := Option.bind_eq_some_iff.mp heq
  cases hx
  rfl

/-- The element in front is the head. -/
theorem insertHead_head (heq : q.insertHead e = some q') : q'.header.head = some e := by
  unfold LinkedList.insertHead at heq
  split at heq
  · cases heq
    rfl
  · obtain ⟨x, -, hx⟩ := Option.bind_eq_some_iff.mp heq
    cases hx
    rfl

/-- Only the inserted element may become the head. -/
theorem orderedInsert_head {rank : α → Int} (heq : q.orderedInsert rank e = some q') :
    q'.header.head = some e ∨ q'.header.head = q.header.head := by
  obtain ⟨-, rfl⟩ | ⟨hempty, x, y, fuel, -, -, hcase⟩ := orderedInsert_cases heq
  · exact .inl rfl
  · obtain htail | ⟨-, hins⟩ | ⟨p, -, rfl⟩ := hcase
    · exact .inr (insertTail_head htail hempty)
    · exact .inl (insertHead_head hins)
    · exact .inr rfl

/-! ## Removal -/

/-- An element that is linked out between two parts. -/
theorem Represents.removeAt (l₁ l₂ : List α) (h : q.Represents (l₁ ++ e :: l₂))
    (hout : q.links.LinksOut q'.links l₁ l₂) (hsize : q'.header.size = q.header.size - 1)
    (hhead : q'.header.head = (l₁ ++ l₂).head?) (htail : q'.header.tail = (l₁ ++ l₂).getLast?) :
    q.Moves q' (l₁ ++ l₂) (l₁ ++ e :: l₂) := by
  have hlen := h.size
  constructor
  · refine ⟨?_, hhead, htail, h.linked.remove hout⟩
    rw [hsize, hlen]
    simp only [List.length_append, List.length_cons]
    omega
  · apply hout.eqOff.mono
    intro x hx
    simp only [List.mem_append, List.mem_cons] at hx ⊢
    exact hx.imp_right .inr

/-- The last element of a list. -/
theorem Represents.removeLast (h : q.Represents [e]) :
    q.removeLast.1 = some e ∧ q.Moves q.removeLast.2 [] [e] := by
  refine ⟨h.head, ?_⟩
  apply h.removeAt [] [] _ rfl rfl rfl
  constructor <;> simp [LinkedList.removeLast]

/-- `remove_head()` takes the first element off. -/
theorem Represents.removeHead (h : q.Represents l) :
    ∃ q', q.removeHead = some (l.head?, q') ∧ q.Moves q' l.tail l := by
  unfold LinkedList.removeHead
  rw [h.empty_eq, h.last_eq]
  cases l with
  | nil => exact ⟨q, rfl, h, .refl _ _⟩
  | cons x xs =>
    cases xs with
    | nil =>
      obtain ⟨hx, hmoves⟩ := h.removeLast
      exact ⟨q.removeLast.2, congrArg some (Prod.ext hx rfl), hmoves⟩
    | cons y ys =>
      have hhead : q.header.head = some x := h.head
      have hnext : q.links.next x = some y := h.linked.2.1
      have hlast : ((x :: y :: ys).length == 1) = false := by simp
      simp only [List.isEmpty_cons, hlast, Bool.false_eq_true, if_false, hhead,
        Option.bind_eq_bind, Option.bind_some, hnext]
      refine ⟨_, rfl, h.removeAt [] (y :: ys) ?_ rfl rfl ?_⟩
      · constructor <;> simp [eq_comm]
      · exact h.tail

/-- `remove_tail()` takes the last element off. -/
theorem Represents.removeTail (h : q.Represents (l ++ [e])) :
    ∃ q', q.removeTail = some (some e, q') ∧ q.Moves q' l (l ++ [e]) := by
  unfold LinkedList.removeTail
  have hempty : (l ++ [e]).isEmpty = false := by simp
  rw [h.empty_eq, hempty, h.last_eq]
  cases hl : l.getLast? with
  | none =>
    obtain rfl := List.getLast?_eq_none_iff.mp hl
    obtain ⟨hx, hmoves⟩ := h.removeLast
    exact ⟨q.removeLast.2, congrArg some (Prod.ext hx rfl), hmoves⟩
  | some p =>
    -- The element in front of the last one becomes the tail.
    have htail : q.header.tail = some e := h.tail.trans (by simp)
    have hprev : q.links.prev e = some p := by
      have := (Links.linked_append.mp h.linked).2.1
      rwa [Option.or_none, hl] at this
    have hmem : p ∈ l := List.mem_of_mem_getLast? hl
    have hlong : ((l ++ [e]).length == 1) = false := by
      have hpos := List.length_pos_of_mem hmem
      simp only [List.length_append, List.length_singleton, beq_eq_false_iff_ne]
      omega
    simp only [hlong, Bool.false_eq_true, if_false, htail, Option.bind_eq_bind, Option.bind_some,
      hprev]
    let q' : LinkedList α :=
      { links := q.links.setNext p none
        header := { q.header with size := q.header.size - 1, tail := some p } }
    have hout : q.links.LinksOut q'.links l [] := by
      constructor <;> simp [q', hl, eq_comm]
    have hhead : q'.header.head = (l ++ []).head? := by
      refine h.head.trans ?_
      cases l with
      | nil => cases hmem
      | cons y ys => simp
    have hmoves := h.removeAt l [] hout rfl hhead (by rw [List.append_nil, hl])
    rw [List.append_nil] at hmoves
    exact ⟨q', rfl, hmoves⟩

/-- An element of the list is unlinked wherever it is. -/
theorem Represents.remove (h : q.Represents l) (he : e ∈ l) :
    ∃ q', q.remove e = some q' ∧ q.Moves q' (l.erase e) l := by
  have hnd := h.nodup
  obtain ⟨l₁, l₂, rfl⟩ := List.append_of_mem he
  obtain ⟨-, hnd₂, hdisj⟩ := List.nodup_append.mp hnd
  -- `e` splits the list; the neighbours decide which of the removals it is
  have he₁ : e ∉ l₁ := fun hmem => hdisj e hmem e List.mem_cons_self rfl
  have he₂ : e ∉ l₂ := (List.nodup_cons.mp hnd₂).1
  have herase : (l₁ ++ e :: l₂).erase e = l₁ ++ l₂ := by
    rw [List.erase_append_right _ he₁, List.erase_cons_head]
  obtain ⟨hprev, hnext, -⟩ := (Links.linked_append.mp h.linked).2
  rw [Option.or_none] at hprev hnext
  unfold LinkedList.remove
  rw [herase, h.last_eq, hprev, hnext]
  by_cases hone : (l₁ ++ e :: l₂).length = 1
  · obtain ⟨rfl, rfl⟩ : l₁ = [] ∧ l₂ = [] := by
      simp only [List.length_append, List.length_cons] at hone
      exact ⟨List.length_eq_zero_iff.mp (by omega), List.length_eq_zero_iff.mp (by omega)⟩
    exact ⟨_, rfl, h.removeLast.2⟩
  · rw [if_neg (by rwa [beq_iff_eq])]
    cases hp : l₁.getLast? with
    | none =>
      obtain rfl := List.getLast?_eq_none_iff.mp hp
      obtain ⟨q', heq, hmoves⟩ := h.removeHead
      exact ⟨q', by simp only [heq, Option.map_some], hmoves⟩
    | some p =>
      have hpmem : p ∈ l₁ := List.mem_of_mem_getLast? hp
      have hpe : p ≠ e := fun heq => he₁ (heq ▸ hpmem)
      cases hn : l₂.head? with
      | none =>
        obtain rfl := List.head?_eq_none_iff.mp hn
        obtain ⟨q', heq, hmoves⟩ := h.removeTail
        rw [List.append_nil]
        exact ⟨q', by simp only [heq, Option.map_some], hmoves⟩
      | some n =>
        have hnmem : n ∈ l₂ := List.mem_of_mem_head? hn
        have hne : n ≠ e := fun heq => he₂ (heq ▸ hnmem)
        have hnext' : (q.links.setNext p (some n)).next e = some n := by
          rw [Links.setNext_next, if_neg hpe.symm, hnext, hn]
        simp only [hnext', Option.map_some]
        refine ⟨_, rfl, h.removeAt l₁ l₂ ?_ rfl ?_ ?_⟩
        · constructor <;> simp [hp, hn, hprev, eq_comm]
        · refine h.head.trans ?_
          cases l₁ with
          | nil => cases hpmem
          | cons y ys => rfl
        · refine h.tail.trans ?_
          rw [List.getLast?_append, List.getLast?_append]
          cases l₂ with
          | nil => cases hnmem
          | cons y ys => rw [List.getLast?_cons_cons]

/-! ### Removal from any list -/

/-- The head stays when another element leaves. -/
theorem removeTail_head {r : Option α} (heq : q.removeTail = some (r, q')) :
    q'.header.head = none ∨ q'.header.head = q.header.head := by
  unfold LinkedList.removeTail at heq
  split at heq
  · cases heq
    exact .inr rfl
  · split at heq
    · cases heq
      exact .inl rfl
    · obtain ⟨z, -, heq⟩ := Option.bind_eq_some_iff.mp heq
      obtain ⟨w, -, heq⟩ := Option.bind_eq_some_iff.mp heq
      cases heq
      exact .inr rfl

/-- The head that is removed, and the one that follows it. -/
theorem removeHead_cases (heq : q.removeHead = some (some e, q')) :
    q.header.head = some e ∧ (q.last ∨ ∃ x, q.links.next e = some x ∧ q' =
      { links := q.links.setPrev x none
        header := { q.header with size := q.header.size - 1, head := some x } }) := by
  unfold LinkedList.removeHead at heq
  split at heq
  · cases heq
  · split at heq
    · rename_i hlast
      cases hhead : q.header.head with
      | none => simp [removeLast, hhead] at heq
      | some x =>
        simp only [removeLast, hhead, Option.some.injEq, Prod.mk.injEq] at heq
        exact ⟨congrArg some heq.1, .inl hlast⟩
    · obtain ⟨z, hz, heq⟩ := Option.bind_eq_some_iff.mp heq
      obtain ⟨x, hx, heq⟩ := Option.bind_eq_some_iff.mp heq
      cases heq
      exact ⟨hz, .inr ⟨x, hx, rfl⟩⟩

/-- Whatever is removed, the new head is one of the old elements. -/
theorem head_of_remove (h : q.Represents l) (heq : q.remove e = some q')
    (hy : q'.header.head = some y) : y ∈ l := by
  unfold LinkedList.remove at heq
  split at heq
  · cases heq
    cases hy
  · split at heq
    · obtain ⟨q'', heq', hm⟩ := h.removeHead
      rw [heq', Option.map_some, Option.some.injEq] at heq
      subst heq
      exact List.mem_of_mem_tail (mem_of_head hm.represents hy)
    · obtain ⟨⟨z, q''⟩, htail, rfl⟩ := Option.map_eq_some_iff.mp heq
      cases removeTail_head htail with
      | inl hnone => cases hnone.symm.trans hy
      | inr hsame => exact mem_of_head h (hsame.symm.trans hy)
    · obtain ⟨n, -, rfl⟩ := Option.map_eq_some_iff.mp heq
      exact mem_of_head h hy

omit [DecidableEq α] in
/-- In a list the loop passes only elements of the list. -/
theorem scan_mem_of_next {rank : α → Int} {L L' : Links α} {fuel : Nat}
    (h : L'.Linked none l none) (hnext : ∀ z ∈ l, L'.next z = L.next z) (hx : x ∈ l)
    (hscan : scan rank L e fuel x = some y) : y ∈ l := by
  induction fuel generalizing x with
  | zero => cases hscan
  | succ fuel ih =>
    unfold scan at hscan
    split at hscan
    · split at hscan
      · rename_i z hz
        exact ih (h.next_mem hx ((hnext x hx).trans hz)) hscan
      · cases hscan
        exact hx
    · cases hscan
      exact hx

/-- The list that has only lost the links of `e`, and at its head the one to the front. -/
theorem Represents.of_detached {rank : α → Int} {fuel : Nat} (h : q'.Represents l)
    (hheader : q'.header = q.header) (hx : q.header.head = some x)
    (hprev : ∀ z, q'.links.prev z = if z = x ∨ z = e then none else q.links.prev z)
    (hnext : ∀ z, q'.links.next z = if z = e then some x else q.links.next z)
    (hscan : scan rank q.links e fuel x = some y) (hy : q.links.prev y = none) :
    q.Represents l := by
  have hxl : x ∈ l := mem_of_head h (hheader ▸ hx)
  have hx' : q'.links.prev x = none := by rw [hprev, if_pos (.inl rfl)]
  have he : e ∉ l := by
    intro he
    have hback := h.linked.prev_of_next he ((hnext e).trans (if_pos rfl))
    cases hx'.symm.trans hback
  have hne (z : α) (hz : z ∈ l) : z ≠ e := fun heq => he (heq ▸ hz)
  have hnext' (z : α) (hz : z ∈ l) : q'.links.next z = q.links.next z := by
    rw [hnext, if_neg (hne z hz)]
  -- The loop stops at an element without a predecessor, and the head is the only one.
  have hyl : y ∈ l := scan_mem_of_next h.linked hnext' hxl hscan
  have hyx : y = x := by
    have hy' : q'.links.prev y = none := by
      rw [hprev, hy, ite_self]
    have hhead := h.head.trans (h.linked.head?_of_prev hyl hy')
    rw [hheader, hx, Option.some.injEq] at hhead
    exact hhead.symm
  refine ⟨hheader ▸ h.size, hheader ▸ h.head, hheader ▸ h.tail, h.linked.congr fun z hz => ?_⟩
  refine ⟨?_, (hnext' z hz).symm⟩
  rw [hprev]
  by_cases hzx : z = x
  · rw [if_pos (.inl hzx), hzx, ← hyx, hy]
  · rw [if_neg fun hor => hor.elim hzx (hne z hz)]

/-- Inserting an element and taking it off again as the head leaves a list only of what
    was a list before. -/
theorem represents_of_insert_remove {rank : α → Int} {q₁ : LinkedList α}
    (hempty : q.empty = false) (hne : q.header.head ≠ some e)
    (hins : q.orderedInsert rank e = some q₁) (hrem : q₁.removeHead = some (some e, q'))
    (h : q'.Represents l) : q.Represents l := by
  obtain ⟨hhead, hcase⟩ := removeHead_cases hrem
  -- the inserted element came out again, so it had become the head
  obtain ⟨he, -⟩ | ⟨-, x, y, fuel, hx, hscan, hins⟩ := orderedInsert_cases hins
  · rw [hempty] at he
    cases he
  obtain htail | ⟨hy, hins⟩ | ⟨p, -, rfl⟩ := hins
  · exact absurd ((insertTail_head htail hempty).symm.trans hhead) hne
  · -- it went in front of the old head
    unfold LinkedList.insertHead at hins
    rw [hempty, if_neg Bool.false_ne_true, hx] at hins
    cases hins
    have hxe : x ≠ e := fun heq => hne (heq ▸ hx)
    obtain hlast | ⟨z, hz, rfl⟩ := hcase
    · simp only [last, empty, beq_iff_eq, beq_eq_false_iff_ne] at hlast hempty
      omega
    · obtain rfl : x = z := by simpa using hz
      apply h.of_detached _ hx _ _ hscan hy
      · rw [show q.header.size + 1 - 1 = q.header.size by omega, ← hx]
      · intro w
        by_cases hwx : w = x <;> simp [hwx, hxe]
      · intro w
        by_cases hwe : w = e <;> simp [hwe]
  · exact absurd hhead hne

end LinkedList

/-! ## `Scheduling_List` refines the scheduling list -/

namespace LinkedSchedulingList

variable {s s' : LinkedSchedulingList Tid} {a : SchedulingList} {S S' : List Tid} {e : Tid}
  {rank : Tid → Int} {eligible : Tid → Bool}

structure Represents (s : LinkedSchedulingList Tid) (a : SchedulingList) : Prop where
  list : s.toLinkedList.Represents a.list
  chosen : s.chosen = a.chosen

/-- `s'` represents `a`, and it has the links of `s` outside `S`. -/
structure Moves (s s' : LinkedSchedulingList Tid) (a : SchedulingList) (S : List Tid) : Prop where
  represents : s'.Represents a
  eqOff : s.links.EqOff s'.links S

/-- A scheduling list with a chosen element inserts into its list. -/
theorem insert_listed (hch : s.chosen.isSome) (heq : s.insert rank e = some s') :
    ∃ q, s.toLinkedList.orderedInsert rank e = some q ∧ ⟨q, s.chosen⟩ = s' := by
  unfold LinkedSchedulingList.insert at heq
  split at heq
  · exact Option.map_eq_some_iff.mp heq
  · rename_i hnone
    rw [hnone] at hch
    cases hch

/-- An element that is not the chosen one is removed from the list. -/
theorem remove_listed (hch : s.chosen ≠ some e) (heq : s.remove e = some s') :
    ∃ q, s.toLinkedList.remove e = some q ∧ ⟨q, s.chosen⟩ = s' := by
  unfold LinkedSchedulingList.remove at heq
  rw [if_neg hch] at heq
  exact Option.map_eq_some_iff.mp heq

/-- `insert()` of the scheduling list, on the links. -/
theorem Represents.insert (h : s.Represents a) (he : e ∉ a.list) :
    ∃ s', s.insert rank e = some s' ∧ s.Moves s' (a.insert rank e) (e :: a.list) := by
  unfold LinkedSchedulingList.insert SchedulingList.insert
  rw [h.chosen]
  cases hch : a.chosen with
  | none => exact ⟨_, rfl, ⟨h.list, rfl⟩, .refl _ _⟩
  | some x =>
    obtain ⟨q', heq, hmoves⟩ := h.list.orderedInsert rank he
    simp only [heq, Option.map_some]
    exact ⟨_, rfl, ⟨hmoves.represents, rfl⟩, hmoves.eqOff⟩

/-- `remove()` of the scheduling list, on the links. -/
theorem Represents.remove (h : s.Represents a) (he : e ∈ a.toList) :
    ∃ s', s.remove e = some s' ∧ s.Moves s' (a.remove e) a.list := by
  unfold LinkedSchedulingList.remove SchedulingList.remove
  rw [h.chosen]
  by_cases hch : a.chosen = some e
  · obtain ⟨q', heq, hmoves⟩ := h.list.removeHead
    simp only [if_pos hch, heq, Option.map_some]
    exact ⟨_, rfl, ⟨hmoves.represents, rfl⟩, hmoves.eqOff⟩
  · have hmem : e ∈ a.list := (SchedulingList.mem_toList.mp he).resolve_left hch
    obtain ⟨q', heq, hmoves⟩ := h.list.remove hmem
    simp only [if_neg hch, heq, Option.map_some]
    exact ⟨_, rfl, ⟨hmoves.represents, rfl⟩, hmoves.eqOff⟩

/-- The chosen element is not listed a second time. -/
theorem exists_chosen (hsome : a.chosen.isSome) (hnd : a.toList.Nodup) :
    ∃ e, a.chosen = some e ∧ e ∉ a.list ∧ a.toList = e :: a.list := by
  obtain ⟨e, hch⟩ := Option.isSome_iff_exists.mp hsome
  exact ⟨e, hch, SchedulingList.not_mem_list hnd hch, by simp [SchedulingList.toList, hch]⟩

/-- The chosen element that is inserted and the head that is then taken. -/
theorem Represents.choose (h : s.Represents a) (hsome : a.chosen.isSome)
    (hnd : a.toList.Nodup) : ∃ s', s.choose rank eligible = some s' ∧
      s.Moves s' (a.choose rank eligible) a.toList := by
  obtain ⟨e, hch, he, htoList⟩ := exists_chosen hsome hnd
  unfold LinkedSchedulingList.choose SchedulingList.choose
  rw [htoList, h.list.empty_eq, hch]
  cases hl : a.list with
  | nil => exact ⟨s, rfl, ⟨h.list, h.chosen⟩, .refl _ _⟩
  | cons x xs =>
    have hhead : s.header.head = some x := h.list.head.trans (by rw [hl]; rfl)
    simp only [List.isEmpty_cons, Bool.false_eq_true, if_false, hhead, Option.bind_eq_bind,
      Option.bind_some]
    by_cases hx : eligible x
    · obtain ⟨q, heq, hmoves⟩ := h.list.orderedInsert rank he
      obtain ⟨q', heq', hmoves'⟩ := hmoves.represents.removeHead
      have hsub : a.list.insertRank rank e ⊆ e :: a.list := (List.perm_insertRank _ _ _).subset
      simp only [if_pos hx, h.chosen, hch, Option.bind_some, heq, heq']
      rw [hl] at hmoves hmoves' hsub ⊢
      exact ⟨_, rfl, ⟨hmoves'.represents, rfl⟩, hmoves.eqOff.trans (hmoves'.eqOff.mono hsub)⟩
    · simp only [if_neg hx]
      exact ⟨s, rfl, ⟨h.list, h.chosen⟩, .refl _ _⟩

/-- Where choosing changes nothing, what it leaves in memory was a list before. -/
theorem represents_of_choose {l : List Tid} (heq : s.choose rank eligible = some s')
    (hch : s.chosen = some e) (hch' : s'.chosen = some e) (hne : s.header.head ≠ some e)
    (h : s'.toLinkedList.Represents l) : s.toLinkedList.Represents l := by
  unfold LinkedSchedulingList.choose at heq
  split at heq
  · cases heq
    exact h
  · rename_i hempty
    obtain ⟨x, hx, heq⟩ := Option.bind_eq_some_iff.mp heq
    split at heq
    · rw [hch, Option.bind_eq_bind, Option.bind_some] at heq
      obtain ⟨q, hins, heq⟩ := Option.bind_eq_some_iff.mp heq
      obtain ⟨⟨z, q'⟩, hrem, heq⟩ := Option.bind_eq_some_iff.mp heq
      cases heq
      obtain rfl : z = some e := hch'
      exact LinkedList.represents_of_insert_remove (Bool.eq_false_iff.mpr hempty) hne hins hrem h
    · cases heq
      exact h

/-- `choose_another()`, on the links. -/
theorem Represents.chooseAnother (h : s.Represents a) (hsome : a.chosen.isSome)
    (hnd : a.toList.Nodup) : ∃ s', s.chooseAnother rank eligible Priority.idle = some s' ∧
      s.Moves s' (a.chooseAnother rank eligible) a.toList := by
  obtain ⟨e, hch, he, htoList⟩ := exists_chosen hsome hnd
  unfold LinkedSchedulingList.chooseAnother SchedulingList.chooseAnother
  rw [htoList, h.list.empty_eq, hch]
  cases hl : a.list with
  | nil => exact ⟨s, rfl, ⟨h.list, h.chosen⟩, .refl _ _⟩
  | cons x xs =>
    have hhead : s.header.head = some x := h.list.head.trans (by rw [hl]; rfl)
    simp only [List.isEmpty_cons, Bool.false_eq_true, if_false, hhead, Option.bind_eq_bind,
      Option.bind_some]
    by_cases hx : eligible x ∧ rank x ≠ Priority.idle
    · obtain ⟨q, heq, hmoves⟩ := h.list.removeHead
      have he' : e ∉ a.list.tail := fun hmem => he (List.mem_of_mem_tail hmem)
      obtain ⟨q', heq', hmoves'⟩ := hmoves.represents.orderedInsert rank he'
      simp only [if_pos hx, h.chosen, hch, Option.bind_some, heq, heq']
      rw [hl] at hmoves hmoves' ⊢
      have hoff := hmoves'.eqOff.mono (List.cons_subset_cons e (List.tail_sublist _).subset)
      exact ⟨_, rfl, ⟨hmoves'.represents, rfl⟩,
        (hmoves.eqOff.mono (List.subset_cons_self e _)).trans hoff⟩
    · simp only [if_neg hx]
      exact ⟨s, rfl, ⟨h.list, h.chosen⟩, .refl _ _⟩

/-- `choose(e)`, on the links. -/
theorem Represents.chooseElement (h : s.Represents a) (he : e ∈ a.toList)
    (hsome : a.chosen.isSome) (hnd : a.toList.Nodup) :
    ∃ s', s.chooseElement rank e = some s' ∧ s.Moves s' (a.chooseElement rank e) a.toList := by
  obtain ⟨x, hch, hx, htoList⟩ := exists_chosen hsome hnd
  unfold LinkedSchedulingList.chooseElement SchedulingList.chooseElement
  rw [h.chosen, hch, htoList]
  by_cases hxe : x = e
  · simp only [hxe, if_true]
    exact ⟨s, rfl, h, .refl _ _⟩
  · have hmem : e ∈ a.list.insertRank rank x := by
      rw [htoList, List.mem_cons] at he
      exact List.mem_insertRank.mpr he
    obtain ⟨q, heq, hmoves⟩ := h.list.orderedInsert rank hx
    obtain ⟨q', heq', hmoves'⟩ := hmoves.represents.remove hmem
    have hsub : a.list.insertRank rank x ⊆ x :: a.list := (List.perm_insertRank _ _ _).subset
    simp only [Option.some.injEq, if_neg hxe, Option.bind_eq_bind, Option.bind_some, heq, heq']
    exact ⟨_, rfl, ⟨hmoves'.represents, rfl⟩, hmoves.eqOff.trans (hmoves'.eqOff.mono hsub)⟩

end LinkedSchedulingList

end Epos
