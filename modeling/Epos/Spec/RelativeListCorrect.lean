import Epos.ForStd.PrefixSums
import Epos.ForStd.TransitionSystem
import Epos.Spec.LinkedListCorrect
import Epos.Spec.SimpleListCorrect

/-!
# Relative lists are ordered lists

`Relative_List` and `Simple_Relative_List` in lockstep with an `Ordered_List` of the
absolute ranks. All three hold the same elements in the same order, and the absolute
ranks are the prefix sums of the relative ones.
-/

namespace Epos

variable {α : Type*} [DecidableEq α] {rank absolute absolute' : α → Int} {b n : Int}
  {l as bs : List α} {e x y : α}

/-! ## The loop of `insert` -/

/-- The loop stops at the first larger absolute rank or at the end, and has made the rank
    of the new element relative to the element in front of this one. -/
theorem walk_relative {next : α → Option α} (prev : Option α) {xs : List α} {fuel : Nat}
    (h : (x :: xs).Chained next none) (hsums : (x :: xs).PrefixSums rank absolute b)
    (he : e ∉ x :: xs) (hb : absolute e = b + rank e) (hfuel : xs.length < fuel) :
    ∃ as y bs, x :: xs = as ++ y :: bs ∧
      walk true next e fuel rank prev x = some (as.getLast?.or prev, y,
        Function.update rank e (absolute e - as.lastTotal absolute b)) ∧
      (∀ a ∈ as, absolute a ≤ absolute e) ∧ (absolute y ≤ absolute e → bs = []) := by
  induction xs generalizing x prev b rank fuel with
  | nil =>
    obtain ⟨n, rfl⟩ := Nat.exists_eq_succ_of_ne_zero (Nat.ne_of_gt (Nat.zero_lt_of_lt hfuel))
    have hnext : next x = none := h.1
    have hself : absolute e - b = rank e := by omega
    refine ⟨[], x, [], rfl, ?_, by simp, fun _ => rfl⟩
    simp [walk, hnext, hself]
  | cons z zs ih =>
    obtain ⟨n, rfl⟩ := Nat.exists_eq_succ_of_ne_zero (Nat.ne_of_gt (Nat.zero_lt_of_lt hfuel))
    have hnext : next x = some z := h.1
    have hx : absolute x = b + rank x := hsums.1
    unfold walk
    by_cases hle : rank x ≤ rank e
    · -- the walk goes on with what is left of the rank of `e` behind `x`
      obtain ⟨-, he'⟩ := not_or.mp (mt List.mem_cons.mpr he)
      have hsums' : (z :: zs).PrefixSums (Function.update rank e (rank e - rank x)) absolute
          (absolute x) :=
        hsums.2.congr (fun w hw => Function.update_of_ne (ne_of_mem_of_not_mem hw he') _ _)
          fun _ _ => rfl
      have hself : absolute e = absolute x + Function.update rank e (rank e - rank x) e := by
        rw [Function.update_self]
        omega
      obtain ⟨as, y, bs, heq, hwalk, has, hy⟩ := ih (some x) h.2 hsums' he' hself
        (Nat.lt_of_succ_lt_succ hfuel)
      refine ⟨x :: as, y, bs, by rw [heq]; rfl, ?_, ?_, hy⟩
      · simp only [if_pos hle, hnext, if_true, hwalk, Function.update_idem, List.lastTotal_cons,
          List.getLast?_cons]
        cases as.getLast? <;> rfl
      · intro a ha
        cases List.mem_cons.mp ha with
        | inl heq =>
          subst heq
          omega
        | inr ha => exact has a ha
    · -- the walk stops before `x`, which is later than `e`
      have hself : absolute e - b = rank e := by omega
      rw [if_neg hle]
      refine ⟨[], x, z :: zs, rfl, ?_, by simp, fun h => absurd h (by omega)⟩
      rw [List.lastTotal_nil, hself, Function.update_eq_self]
      rfl

/-- The rank of an element that is appended. -/
theorem prefixSums_insertTail (h : (as ++ [y]).PrefixSums rank absolute b)
    (hnd : (as ++ [y]).Nodup) (he : e ∉ as ++ [y]) :
    (as ++ [y] ++ [e]).PrefixSums (Function.update rank e (absolute e - absolute y)) absolute b := by
  rw [← List.append_nil (as ++ [y])] at h hnd he
  apply h.insert hnd
  · simp only [List.lastTotal, List.getLast?_append, List.getLast?_singleton, Option.some_or,
      Option.map_some, Option.getD_some, Function.update_self]
    omega
  · intro z hz
    exact Function.update_of_ne (ne_of_mem_of_not_mem hz he) _ _

/-- The ranks of an element that is put in front of `y`, and of `y`. -/
theorem prefixSums_insertBefore {c : Int} (h : (as ++ y :: bs).PrefixSums rank absolute b)
    (hnd : (as ++ y :: bs).Nodup) (he : e ∉ as ++ y :: bs)
    (hc : absolute e = as.lastTotal absolute b + c) :
    (as ++ e :: y :: bs).PrefixSums
      (Function.update (Function.update rank e c) y (rank y - c)) absolute b := by
  have hey : e ≠ y := fun heq => he (by simp [heq])
  have hself : Function.update (Function.update rank e c) y (rank y - c) e = c := by
    rw [Function.update_of_ne hey, Function.update_self]
  apply h.insert hnd
  · rw [hself, hc]
  · intro z hz
    rw [hself, List.head?_cons]
    by_cases hzy : z = y
    · rw [hzy, Function.update_self, if_pos rfl]
    · rw [Function.update_of_ne hzy, Function.update_of_ne (ne_of_mem_of_not_mem hz he),
        if_neg fun heq => hzy (Option.some.inj heq).symm]

/-- Where the loop of `insert` stops, and what the ranks that are written there add up to: `e`
    goes behind the last element, or in front of `y`. -/
theorem walk_insertion {next : α → Option α} {xs : List α} {fuel : Nat}
    (h : (x :: xs).Chained next none) (hnd : (x :: xs).Nodup)
    (hsums : (x :: xs).PrefixSums rank absolute 0) (he : e ∉ x :: xs)
    (hrank : rank e = absolute e) (hfuel : xs.length < fuel) :
    ∃ as y bs rank', x :: xs = as ++ y :: bs ∧
      walk true next e fuel rank none x = some (as.getLast?, y, rank') ∧
      (rank' y ≤ rank' e ∧ bs = [] ∧ (x :: xs).insertRank absolute e = as ++ [y] ++ [e] ∧
          (as ++ [y] ++ [e]).PrefixSums (Function.update rank' e (rank' e - rank' y)) absolute 0 ∨
        ¬rank' y ≤ rank' e ∧ (x :: xs).insertRank absolute e = as ++ e :: y :: bs ∧
          (as ++ e :: y :: bs).PrefixSums (Function.update rank' y (rank' y - rank' e)) absolute
            0) := by
  have hb : absolute e = 0 + rank e := by omega
  obtain ⟨as, y, bs, heq, hwalk, has, hy⟩ := walk_relative none h hsums he hb hfuel
  rw [heq] at hnd he hsums ⊢
  rw [Option.or_none] at hwalk
  have hye : y ≠ e := fun heq => he (by simp [← heq])
  have hsumy : absolute y = as.lastTotal absolute 0 + rank y :=
    (List.prefixSums_append.mp hsums).2.1
  refine ⟨as, y, bs, _, rfl, hwalk, ?_⟩
  simp only [Function.update_self, Function.update_of_ne hye, Function.update_idem]
  -- either the walk stopped at the last element, or y is the first with a later rank
  by_cases hle : absolute y ≤ absolute e
  · obtain rfl := hy hle
    have hall : ∀ a ∈ as ++ [y], absolute a ≤ absolute e := by
      intro a ha
      cases List.mem_append.mp ha with
      | inl ha => exact has a ha
      | inr ha => exact List.mem_singleton.mp ha ▸ hle
    have hc : absolute e - as.lastTotal absolute 0 - rank y = absolute e - absolute y := by
      omega
    rw [hc]
    exact .inl ⟨by omega, rfl, List.insertRank_eq_append hall, prefixSums_insertTail hsums hnd he⟩
  · refine .inr ⟨by omega, List.insertRank_append_cons has (not_le.mp hle), ?_⟩
    exact prefixSums_insertBefore hsums hnd he (by omega)

/-- A removed element gives its rank to the one behind it. -/
theorem prefixSums_giveBack {next : α → Option α}
    (h : (as ++ e :: bs).PrefixSums rank absolute b) (hnd : (as ++ e :: bs).Nodup)
    (hnext : next e = bs.head?) : (as ++ bs).PrefixSums (giveBack next rank e) absolute b := by
  apply h.remove hnd
  intro x
  unfold giveBack
  rw [hnext]
  cases bs.head? with
  | none => rw [if_neg (by simp)]
  | some y =>
    by_cases hx : x = y
    · rw [hx, if_pos rfl]
      exact Function.update_self _ _ _
    · rw [if_neg fun heq => hx (Option.some.inj heq).symm]
      exact Function.update_of_ne hx _ _

/-- The head is promoted. -/
theorem prefixSums_promote (h : (x :: l).PrefixSums rank absolute b) (hnd : (x :: l).Nodup)
    (habs : ∀ y ∈ x :: l, absolute' y = absolute y - n) :
    (x :: l).PrefixSums (Function.update rank x (rank x - n)) absolute' b := by
  apply h.shift (Function.update_self _ _ _) _ habs
  intro y hy
  have hne : y ≠ x := fun heq => (List.nodup_cons.mp hnd).1 (heq ▸ hy)
  exact Function.update_of_ne hne _ _

/-! ## `Relative_List` -/

namespace LinkedList

/-- A removed element keeps its `next`. -/
theorem removeHead_next {q q' : LinkedList α} {r : Option α}
    (heq : q.removeHead = some (r, q')) : q'.links.next = q.links.next := by
  unfold LinkedList.removeHead at heq
  split at heq
  · cases heq
    rfl
  · split at heq
    · cases heq
      rfl
    · obtain ⟨y, -, heq⟩ := Option.bind_eq_some_iff.mp heq
      obtain ⟨z, -, heq⟩ := Option.bind_eq_some_iff.mp heq
      cases heq
      rfl

/-- Removing leaves the link of the element alone. -/
theorem remove_next {q q' : LinkedList α} (heq : q.remove e = some q') :
    q'.links.next e = q.links.next e := by
  unfold LinkedList.remove at heq
  split at heq
  · cases heq
    rfl
  · split at heq
    · obtain ⟨⟨r, q''⟩, hhead, rfl⟩ := Option.map_eq_some_iff.mp heq
      rw [removeHead_next hhead]
    · rename_i hnext
      obtain ⟨⟨r, q''⟩, htail, rfl⟩ := Option.map_eq_some_iff.mp heq
      unfold LinkedList.removeTail at htail
      split at htail
      · cases htail
        rfl
      · obtain ⟨y, -, htail⟩ := Option.bind_eq_some_iff.mp htail
        obtain ⟨z, -, htail⟩ := Option.bind_eq_some_iff.mp htail
        cases htail
        rw [Links.setNext_next, hnext, ite_self]
    · rename_i p m hp hm
      obtain ⟨z, -, rfl⟩ := Option.map_eq_some_iff.mp heq
      rw [Links.setPrev_next, Links.setNext_next, hm, ite_self]

end LinkedList

namespace RelativeList

variable {q q' : RelativeList α}

/-- The list holds these elements, with ranks that add up to the absolute ones. -/
structure Keeps (q : RelativeList α) (absolute : α → Int) (l : List α) : Prop where
  represents : q.Represents l
  sums : l.PrefixSums q.rank absolute 0

/-- `insert()` puts the element where its time belongs, given enough fuel. -/
theorem Keeps.insertWithin {fuel : Nat} (h : q.Keeps absolute l) (he : e ∉ l)
    (hrank : q.rank e = absolute e) (hfuel : l.length ≤ fuel) :
    ∃ q', q.insertWithin fuel e = some q' ∧ q'.Keeps absolute (l.insertRank absolute e) := by
  have hr := h.represents
  unfold RelativeList.insertWithin
  rw [hr.empty_eq]
  cases l with
  | nil => exact ⟨_, rfl, hr.insertFirst.represents, by simp [hrank], trivial⟩
  | cons x xs =>
    have hhead : q.header.head = some x := hr.head
    obtain ⟨as, y, bs, rank', heq, hwalk, hplace⟩ :=
      walk_insertion hr.linked.chained hr.nodup h.sums he hrank hfuel
    rw [heq] at hr he
    simp only [List.isEmpty_cons, Bool.false_eq_true, if_false, hhead, Option.bind_eq_bind,
      Option.bind_some, hwalk]
    cases hplace with
    -- the walk stopped at the last element
    | inl hlast =>
      obtain ⟨hle, rfl, hinsert, hsums⟩ := hlast
      obtain ⟨q', hins, hmoves⟩ := hr.insertTail he
      rw [if_pos hle, hinsert, hins]
      exact ⟨_, rfl, hmoves.represents, hsums⟩
    -- the walk stopped in front of y: a new head, or between two elements
    | inr hbefore =>
      obtain ⟨hgt, hinsert, hsums⟩ := hbefore
      have hprev : q.links.prev y = as.getLast? := by
        have hlinked := (Links.linked_append.mp hr.linked).2.1
        rwa [Option.or_none] at hlinked
      rw [if_neg hgt, hinsert, hprev]
      cases hp : as.getLast? with
      | none =>
        obtain rfl := List.getLast?_eq_none_iff.mp hp
        obtain ⟨q', heq, hmoves⟩ := hr.insertHead he
        rw [heq]
        exact ⟨_, rfl, hmoves.represents, hsums⟩
      | some p => exact ⟨_, rfl, (hr.insertBetween hp he).represents, hsums⟩

/-- The fuel is enough. -/
theorem Keeps.insert (h : q.Keeps absolute l) (he : e ∉ l) (hrank : q.rank e = absolute e) :
    ∃ q', q.insert e = some q' ∧ q'.Keeps absolute (l.insertRank absolute e) :=
  h.insertWithin he hrank h.represents.length_le_scanFuel

/-- `remove_head` and `remove(e)` alike. -/
theorem Keeps.unlinked {L : LinkedList α} (as : List α) (h : q.Keeps absolute (as ++ e :: bs))
    (hrep : L.Represents (as ++ bs)) (hnext : L.links.next e = q.links.next e) :
    RelativeList.Keeps { toLinkedList := L, rank := giveBack L.links.next q.rank e } absolute
      (as ++ bs) := by
  refine ⟨hrep, prefixSums_giveBack h.sums h.represents.nodup ?_⟩
  have hmid := (Links.linked_append.mp h.represents.linked).2.2.1
  rwa [hnext, ← Option.or_none (o := bs.head?)]

/-- `remove_head()` takes the earliest element off. -/
theorem Keeps.removeHead (h : q.Keeps absolute l) :
    ∃ q', q.removeHead = some (l.head?, q') ∧ q'.Keeps absolute l.tail := by
  obtain ⟨L, heq, hmoves⟩ := h.represents.removeHead
  unfold RelativeList.removeHead
  simp only [heq, Option.bind_eq_bind, Option.bind_some]
  cases l with
  | nil => exact ⟨_, rfl, hmoves.represents, trivial⟩
  | cons x xs =>
    exact ⟨_, rfl, h.unlinked [] hmoves.represents (by rw [LinkedList.removeHead_next heq])⟩

/-- `remove()` gives the rank of the element to the one behind. -/
theorem Keeps.remove (h : q.Keeps absolute l) (he : e ∈ l) :
    ∃ q', q.remove e = some q' ∧ q'.Keeps absolute (l.erase e) := by
  obtain ⟨L, heq, hmoves⟩ := h.represents.remove he
  have hrep := hmoves.represents
  unfold RelativeList.remove
  simp only [heq, Option.bind_eq_bind, Option.bind_some]
  obtain ⟨as, bs, hnone, rfl, herase⟩ := List.exists_erase_eq he
  rw [herase] at hrep ⊢
  exact ⟨_, rfl, h.unlinked _ hrep (LinkedList.remove_next heq)⟩

/-- A tick brings every element nearer. -/
theorem Keeps.promoteHead (h : q.Keeps absolute l) (hl : l ≠ [])
    (habs : ∀ y ∈ l, absolute' y = absolute y - n) :
    ∃ q', q.promoteHead n = some q' ∧ q'.Keeps absolute' l := by
  have hhead := h.represents.head
  unfold RelativeList.promoteHead
  cases l with
  | nil => exact absurd rfl hl
  | cons x xs =>
    rw [hhead]
    exact ⟨_, rfl, h.represents, prefixSums_promote h.sums h.represents.nodup habs⟩

end RelativeList

/-! ## `Simple_Relative_List` -/

namespace SimpleOrderedList

variable {q q' : SimpleOrderedList α}

/-- The list holds these elements, with ranks that add up to the absolute ones. -/
structure Keeps (q : SimpleOrderedList α) (absolute : α → Int) (l : List α) : Prop where
  represents : q.Represents l
  sums : l.PrefixSums q.rank absolute 0

/-- On a simple list `insert()` puts the element where its time belongs, given enough fuel. -/
theorem Keeps.insertWithin {fuel : Nat} (h : q.Keeps absolute l) (he : e ∉ l)
    (hrank : q.rank e = absolute e) (hfuel : l.length ≤ fuel) :
    ∃ q', q.insertWithin true fuel e = some q' ∧ q'.Keeps absolute (l.insertRank absolute e) := by
  have hr := h.represents
  unfold SimpleOrderedList.insertWithin
  rw [hr.empty_eq]
  cases l with
  | nil => exact ⟨_, rfl, hr.insertFirst, by simp [hrank], trivial⟩
  | cons x xs =>
    have hhead : q.header.head = some x := hr.head
    obtain ⟨as, y, bs, rank', heq, hwalk, hplace⟩ :=
      walk_insertion hr.chained hr.nodup h.sums he hrank hfuel
    rw [heq] at hr he
    simp only [List.isEmpty_cons, Bool.false_eq_true, if_false, hhead, Option.bind_eq_bind,
      Option.bind_some, hwalk, if_true]
    cases hplace with
    -- the walk stopped at the last element
    | inl hlast =>
      obtain ⟨hle, rfl, hinsert, hsums⟩ := hlast
      obtain ⟨q', hins, hq'⟩ := hr.insertTail he
      rw [if_pos hle, hinsert, hins]
      exact ⟨_, rfl, hq', hsums⟩
    -- the walk stopped in front of y: a new head, or between two elements
    | inr hbefore =>
      obtain ⟨hgt, hinsert, hsums⟩ := hbefore
      rw [if_neg hgt, hinsert]
      cases hp : as.getLast? with
      | none =>
        obtain rfl := List.getLast?_eq_none_iff.mp hp
        exact ⟨_, rfl, hr.insertHead he, hsums⟩
      | some p => exact ⟨_, rfl, hr.insertBetween hp he, hsums⟩

/-- The fuel is enough. -/
theorem Keeps.insert (h : q.Keeps absolute l) (he : e ∉ l) (hrank : q.rank e = absolute e) :
    ∃ q', q.insert true e = some q' ∧ q'.Keeps absolute (l.insertRank absolute e) :=
  h.insertWithin he hrank h.represents.length_le_findFuel

/-- `remove_head` and `remove(e)` alike. -/
theorem Keeps.unlinked {L : SimpleList α} (as : List α) (h : q.Keeps absolute (as ++ e :: bs))
    (hrep : L.Represents (as ++ bs)) (hnext : L.next e = q.next e) :
    SimpleOrderedList.Keeps { toSimpleList := L, rank := giveBack L.next q.rank e } absolute
      (as ++ bs) := by
  refine ⟨hrep, prefixSums_giveBack h.sums h.represents.nodup ?_⟩
  have hmid := (List.chained_append.mp h.represents.chained).2.1
  rwa [hnext, ← Option.or_none (o := bs.head?)]

/-- `remove_head()` on a simple list. -/
theorem Keeps.removeHead (h : q.Keeps absolute l) :
    ∃ q', q.removeHead true = some (l.head?, q') ∧ q'.Keeps absolute l.tail := by
  obtain ⟨L, heq, hrep, hnext⟩ := h.represents.removeHead
  unfold SimpleOrderedList.removeHead
  simp only [heq, Option.bind_eq_bind, Option.bind_some]
  cases l with
  | nil => exact ⟨_, rfl, hrep, trivial⟩
  | cons x xs => exact ⟨_, rfl, h.unlinked [] hrep (by rw [hnext])⟩

/-- `remove()` on a simple list. -/
theorem Keeps.remove (h : q.Keeps absolute l) (he : e ∈ l) :
    ∃ q', q.remove true e = some q' ∧ q'.Keeps absolute (l.erase e) := by
  obtain ⟨L, heq, hrep⟩ := h.represents.remove he
  unfold SimpleOrderedList.remove
  simp only [heq, Option.bind_eq_bind, Option.bind_some]
  obtain ⟨as, bs, hnone, rfl, herase⟩ := List.exists_erase_eq he
  rw [herase] at hrep ⊢
  exact ⟨_, rfl, h.unlinked _ hrep (SimpleList.remove_next heq)⟩

/-- A tick on a simple list. -/
theorem Keeps.promoteHead (h : q.Keeps absolute l) (hl : l ≠ [])
    (habs : ∀ y ∈ l, absolute' y = absolute y - n) :
    ∃ q', q.promoteHead n = some q' ∧ q'.Keeps absolute' l := by
  have hhead := h.represents.head
  unfold SimpleOrderedList.promoteHead
  cases l with
  | nil => exact absurd rfl hl
  | cons x xs =>
    rw [hhead]
    exact ⟨_, rfl, h.represents, prefixSums_promote h.sums h.represents.nodup habs⟩

end SimpleOrderedList

/-! ## Runs -/

/-- The two relative lists and an `Ordered_List` of the absolute ranks, with the members
    in the order of their insertion. -/
structure RelativeLists (α : Type*) where
  doubly : Option (RelativeList α)
  simply : Option (SimpleOrderedList α)
  plain : Option (LinkedList α)
  absolute : α → Int
  members : List α := []

inductive RelativeAction (α : Type*) where
  | insert (e : α) (rank : Int)
  | removeHead
  | remove (e : α)
  | promote (n : Int)
  deriving DecidableEq, Repr

namespace RelativeLists

def step (σ : RelativeLists α) : RelativeAction α → RelativeLists α
  | .insert e r =>
    let absolute := Function.update σ.absolute e r
    { doubly := σ.doubly.bind fun q =>
        RelativeList.insert { q with rank := Function.update q.rank e r } e
      simply := σ.simply.bind fun q =>
        SimpleOrderedList.insert true { q with rank := Function.update q.rank e r } e
      plain := σ.plain.bind (·.orderedInsert absolute e)
      absolute := absolute
      members := σ.members ++ [e] }
  | .removeHead =>
    { doubly := (σ.doubly.bind (·.removeHead)).map Prod.snd
      simply := (σ.simply.bind (·.removeHead true)).map Prod.snd
      plain := (σ.plain.bind (·.removeHead)).map Prod.snd
      absolute := σ.absolute
      members := (σ.plain.bind (·.header.head)).elim σ.members σ.members.erase }
  | .remove e =>
    { doubly := σ.doubly.bind (·.remove e)
      simply := σ.simply.bind (·.remove true e)
      plain := σ.plain.bind (·.remove e)
      absolute := σ.absolute
      members := σ.members.erase e }
  | .promote n =>
    { doubly := σ.doubly.bind (·.promoteHead n)
      simply := σ.simply.bind (·.promoteHead n)
      plain := σ.plain
      absolute := fun e => if e ∈ σ.members then σ.absolute e - n else σ.absolute e
      members := σ.members }

/-- An element is in the lists at most once, and there is a head to promote. -/
def CanStep (σ : RelativeLists α) : RelativeAction α → Prop
  | .insert e _ => e ∉ σ.members
  | .removeHead => True
  | .remove e => e ∈ σ.members
  | .promote _ => σ.members ≠ []

instance (σ : RelativeLists α) (a : RelativeAction α) : Decidable (σ.CanStep a) := by
  cases a <;> unfold CanStep <;> infer_instance

omit [DecidableEq α] in
/-- The lists start empty; what the elements hold is left open. -/
def Empty (σ : RelativeLists α) : Prop :=
  (∃ L rank, σ.doubly = some { links := L, header := {}, rank := rank }) ∧
    (∃ next rank, σ.simply = some { next := next, header := {}, rank := rank }) ∧
    (∃ L, σ.plain = some { links := L, header := {} }) ∧ σ.members = []

/-- The lists hold `l`, in ascending order of the absolute rank and first come first
    served, and the absolute ranks are the prefix sums of the relative ones. -/
structure Refines (σ : RelativeLists α) (l : List α) : Prop where
  doubly : ∃ q, σ.doubly = some q ∧ q.Represents l ∧
    ∀ as x bs, l = as ++ x :: bs → ((as ++ [x]).map q.rank).sum = σ.absolute x
  simply : ∃ q, σ.simply = some q ∧ q.Represents l ∧
    ∀ as x bs, l = as ++ x :: bs → ((as ++ [x]).map q.rank).sum = σ.absolute x
  plain : ∃ q, σ.plain = some q ∧ q.Represents l
  sorted : l.RankSorted σ.absolute
  fifo : ∀ r, l.filter (σ.absolute · = r) = σ.members.filter (σ.absolute · = r)

end RelativeLists

def relativeLists (α : Type*) [DecidableEq α] :
    TransitionSystem (RelativeLists α) (RelativeAction α) where
  Init := RelativeLists.Empty
  Enabled := RelativeLists.CanStep
  next := RelativeLists.step

instance (σ : RelativeLists α) (a : RelativeAction α) :
    Decidable ((relativeLists α).Enabled σ a) :=
  inferInstanceAs (Decidable (σ.CanStep a))

namespace RelativeLists

variable {σ : RelativeLists α}

/-- What every step keeps. -/
structure Synced (σ : RelativeLists α) (l : List α) : Prop where
  doubly : ∃ q, σ.doubly = some q ∧ q.Keeps σ.absolute l
  simply : ∃ q, σ.simply = some q ∧ q.Keeps σ.absolute l
  plain : ∃ q, σ.plain = some q ∧ q.Represents l
  order : List.StableSortOf σ.absolute σ.members l

namespace Synced

/-- Both lists stay in step when an element is inserted. -/
theorem insert (h : σ.Synced l) (he : e ∉ σ.members) (r : Int) :
    (σ.step (.insert e r)).Synced (l.insertRank (Function.update σ.absolute e r) e) := by
  -- the rank is written on an element outside of the lists
  have hel : e ∉ l := mt (h.order.mem_iff e).mp he
  have hoff (f : α → Int) (x : α) (hx : x ∈ l) : Function.update f e r x = f x :=
    Function.update_of_ne (ne_of_mem_of_not_mem hx hel) _ _
  have hself (f : α → Int) : Function.update f e r e = r := Function.update_self _ _ _
  obtain ⟨q, hq, hkeeps⟩ := h.doubly
  obtain ⟨s, hs, hskeeps⟩ := h.simply
  obtain ⟨p, hp, hrep⟩ := h.plain
  have horder : List.StableSortOf (Function.update σ.absolute e r) (σ.members ++ [e])
      (l.insertRank (Function.update σ.absolute e r) e) :=
    h.order.insert he fun x hx => hoff _ x ((h.order.mem_iff x).mpr hx)
  have hq' : RelativeList.Keeps { q with rank := Function.update q.rank e r }
      (Function.update σ.absolute e r) l := ⟨hkeeps.1, hkeeps.2.congr (hoff _) (hoff _)⟩
  have hs' : SimpleOrderedList.Keeps { s with rank := Function.update s.rank e r }
      (Function.update σ.absolute e r) l := ⟨hskeeps.1, hskeeps.2.congr (hoff _) (hoff _)⟩
  obtain ⟨q'', heq, hq''⟩ := hq'.insert hel ((hself _).trans (hself _).symm)
  obtain ⟨s'', hseq, hs''⟩ := hs'.insert hel ((hself _).trans (hself _).symm)
  obtain ⟨p'', hpeq, hp''⟩ := hrep.orderedInsert (Function.update σ.absolute e r) hel
  refine ⟨⟨q'', ?_, hq''⟩, ⟨s'', ?_, hs''⟩, ⟨p'', ?_, hp''.represents⟩, horder⟩
  · show σ.doubly.bind _ = _
    rw [hq, Option.bind_some, heq]
  · show σ.simply.bind _ = _
    rw [hs, Option.bind_some, hseq]
  · show σ.plain.bind _ = _
    rw [hp, Option.bind_some, hpeq]

/-- Both lists stay in step when an element is removed. -/
theorem remove (h : σ.Synced l) (he : e ∈ σ.members) :
    (σ.step (.remove e)).Synced (l.erase e) := by
  have hel : e ∈ l := (h.order.mem_iff e).mpr he
  obtain ⟨q, hq, hkeeps⟩ := h.doubly
  obtain ⟨s, hs, hskeeps⟩ := h.simply
  obtain ⟨p, hp, hrep⟩ := h.plain
  obtain ⟨q', heq, hq'⟩ := hkeeps.remove hel
  obtain ⟨s', hseq, hs'⟩ := hskeeps.remove hel
  obtain ⟨p', hpeq, hp'⟩ := hrep.remove hel
  refine ⟨⟨q', ?_, hq'⟩, ⟨s', ?_, hs'⟩, ⟨p', ?_, hp'.represents⟩, h.order.erase e⟩
  · show σ.doubly.bind _ = _
    rw [hq, Option.bind_some, heq]
  · show σ.simply.bind _ = _
    rw [hs, Option.bind_some, hseq]
  · show σ.plain.bind _ = _
    rw [hp, Option.bind_some, hpeq]

/-- Both lists stay in step when the head is removed. -/
theorem removeHead (h : σ.Synced l) : (σ.step .removeHead).Synced l.tail := by
  obtain ⟨q, hq, hkeeps⟩ := h.doubly
  obtain ⟨s, hs, hskeeps⟩ := h.simply
  obtain ⟨p, hp, hrep⟩ := h.plain
  obtain ⟨q', heq, hq'⟩ := hkeeps.removeHead
  obtain ⟨s', hseq, hs'⟩ := hskeeps.removeHead
  obtain ⟨p', hpeq, hp'⟩ := hrep.removeHead
  have hhead : p.header.head = l.head? := hrep.head
  have hmembers : (σ.step .removeHead).members = l.head?.elim σ.members σ.members.erase := by
    show (σ.plain.bind _).elim _ _ = _
    rw [hp, Option.bind_some, hhead]
  refine ⟨⟨q', ?_, hq'⟩, ⟨s', ?_, hs'⟩, ⟨p', ?_, hp'.represents⟩, ?_⟩
  · show (σ.doubly.bind _).map _ = _
    rw [hq, Option.bind_some, heq, Option.map_some]
  · show (σ.simply.bind _).map _ = _
    rw [hs, Option.bind_some, hseq, Option.map_some]
  · show (σ.plain.bind _).map _ = _
    rw [hp, Option.bind_some, hpeq, Option.map_some]
  · rw [hmembers]
    cases l with
    | nil => exact h.order
    | cons x xs =>
      have herase := h.order.erase x
      rwa [List.erase_cons_head] at herase

/-- Both lists stay in step with every tick. -/
theorem promote (h : σ.Synced l) (hne : σ.members ≠ []) (n : Int) :
    (σ.step (.promote n)).Synced l := by
  have habs (x : α) (hx : x ∈ σ.members) :
      (σ.step (.promote n)).absolute x = σ.absolute x - n := if_pos hx
  have habs' (x : α) (hx : x ∈ l) := habs x ((h.order.mem_iff x).mp hx)
  have hl : l ≠ [] := mt h.order.eq_nil_iff.mp hne
  obtain ⟨q, hq, hkeeps⟩ := h.doubly
  obtain ⟨s, hs, hskeeps⟩ := h.simply
  obtain ⟨q', heq, hq'⟩ := hkeeps.promoteHead hl habs'
  obtain ⟨s', hseq, hs'⟩ := hskeeps.promoteHead hl habs'
  refine ⟨⟨q', ?_, hq'⟩, ⟨s', ?_, hs'⟩, h.plain, h.order.congr ?_⟩
  · show σ.doubly.bind _ = _
    rw [hq, Option.bind_some, heq]
  · show σ.simply.bind _ = _
    rw [hs, Option.bind_some, hseq]
  · intro x hx y hy
    rw [habs x hx, habs y hy]
    omega

/-- Both lists stay in step. -/
theorem step (h : σ.Synced l) (a : RelativeAction α) (ha : (relativeLists α).Enabled σ a) :
    ∃ l', ((relativeLists α).next σ a).Synced l' := by
  cases a with
  | insert e r => exact ⟨_, h.insert ha r⟩
  | removeHead => exact ⟨_, h.removeHead⟩
  | remove e => exact ⟨_, h.remove ha⟩
  | promote n => exact ⟨_, h.promote ha n⟩

omit [DecidableEq α] in
/-- Two empty lists are in step. -/
theorem of_empty (h : σ.Empty) : σ.Synced [] := by
  obtain ⟨⟨L, rank, hq⟩, ⟨next, rank', hs⟩, ⟨L', hp⟩, hmembers⟩ := h
  refine ⟨⟨_, hq, ⟨rfl, rfl, rfl, trivial⟩, trivial⟩, ⟨_, hs, ⟨rfl, rfl, rfl, trivial⟩, trivial⟩,
    ⟨_, hp, rfl, rfl, rfl, trivial⟩, ?_⟩
  rw [hmembers]
  exact .nil _

omit [DecidableEq α] in
/-- Lists in step refine the times. -/
theorem refines (h : σ.Synced l) : σ.Refines l := by
  obtain ⟨q, hq, hkeeps⟩ := h.doubly
  obtain ⟨s, hs, hskeeps⟩ := h.simply
  refine ⟨⟨q, hq, hkeeps.represents, fun as x bs hl => ?_⟩,
    ⟨s, hs, hskeeps.represents, fun as x bs hl => ?_⟩, h.plain, h.order.sorted, h.order.fifo⟩
  · rw [← List.prefixSums_iff.mp hkeeps.sums as x bs hl, zero_add]
  · rw [← List.prefixSums_iff.mp hskeeps.sums as x bs hl, zero_add]

end Synced

end RelativeLists

/-- Along every history both lists hold the times, in their order. -/
theorem relativeLists_refines (σ : RelativeLists α) (as : List (RelativeAction α))
    (hinit : (relativeLists α).Init σ) (hv : (relativeLists α).Valid σ as) :
    ∃ l, ((relativeLists α).run σ as).Refines l := by
  have hreach := hv.reachable (.init hinit)
  obtain ⟨l, hl⟩ := hreach.invariant (I := fun σ => ∃ l, σ.Synced l)
    (fun _ h => ⟨[], .of_empty h⟩) fun _ a h ha => by
      obtain ⟨l, hl⟩ := h
      exact hl.step a ha
  exact ⟨l, hl.refines⟩

/-- Three insertions, one between the others, the head promoted below zero, and two
    removals. -/
theorem relativeLists_refines_example :
    ∃ l, ((relativeLists Nat).run
      { doubly := some { links := ⟨fun _ => none, fun _ => none⟩, header := {}, rank := fun _ => 0 }
        simply := some { next := fun _ => none, header := {}, rank := fun _ => 0 }
        plain := some { links := ⟨fun _ => none, fun _ => none⟩, header := {} }
        absolute := fun _ => 0 }
      [.insert 1 5, .insert 2 9, .insert 3 5, .promote 7, .remove 3, .removeHead]).Refines l :=
  relativeLists_refines _ _ ⟨⟨_, _, rfl⟩, ⟨_, _, rfl⟩, ⟨_, rfl⟩, rfl⟩ (by decide)

end Epos
