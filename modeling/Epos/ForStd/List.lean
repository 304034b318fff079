import Mathlib.Data.List.Sort
import Mathlib.Logic.Function.Basic
import Mathlib.Order.Bounds.Basic

/-!
# Lists ordered by a rank

Insertion into a list that is kept in ascending order of a rank, where the rank
is a function of the element and may change while the element is listed. An
element is inserted behind its equals, so that equal ranks are served first come
first served. Nothing here mentions the kernel.
-/

namespace List

variable {α κ : Type*} [LinearOrder κ]

/-- Insert `e` in front of the first element with a larger rank. -/
def insertRank (rank : α → κ) (e : α) (l : List α) : List α :=
  l.orderedInsert (fun a b => rank a < rank b) e

/-- The ranks ascend along the list. -/
def RankSorted (rank : α → κ) (l : List α) : Prop :=
  l.Pairwise fun a b => rank a ≤ rank b

instance (rank : α → κ) (l : List α) : Decidable (l.RankSorted rank) :=
  inferInstanceAs (Decidable (l.Pairwise _))

/-- Inserting into an empty list. -/
@[simp] theorem insertRank_nil (rank : α → κ) (e : α) : [].insertRank rank e = [e] := rfl

/-- The element goes behind those of the same rank. -/
theorem insertRank_cons (rank : α → κ) (e x : α) (xs : List α) :
    (x :: xs).insertRank rank e =
      if rank x ≤ rank e then x :: xs.insertRank rank e else e :: x :: xs := by
  simp only [insertRank, orderedInsert_cons]
  by_cases h : rank x ≤ rank e
  · rw [if_neg (not_lt.mpr h), if_pos h]
  · rw [if_pos (not_le.mp h), if_neg h]

/-- Inserting adds the element. -/
theorem perm_insertRank (rank : α → κ) (e : α) (l : List α) :
    (l.insertRank rank e).Perm (e :: l) :=
  perm_orderedInsert _ _ _

/-- The inserted element is the only new member. -/
@[simp] theorem mem_insertRank {rank : α → κ} {e x : α} {l : List α} :
    x ∈ l.insertRank rank e ↔ x = e ∨ x ∈ l :=
  mem_orderedInsert _

/-- The list is longer by one. -/
@[simp] theorem length_insertRank (rank : α → κ) (e : α) (l : List α) :
    (l.insertRank rank e).length = l.length + 1 :=
  (perm_insertRank rank e l).length_eq

/-- A new element comes once. -/
@[simp] theorem nodup_insertRank {rank : α → κ} {e : α} {l : List α} :
    (l.insertRank rank e).Nodup ↔ e ∉ l ∧ l.Nodup := by
  rw [(perm_insertRank rank e l).nodup_iff, nodup_cons]

/-- The place of the element, when its neighbours are known. -/
theorem insertRank_append_cons {rank : α → κ} {e y : α} {as bs : List α}
    (has : ∀ a ∈ as, rank a ≤ rank e) (hy : rank e < rank y) :
    (as ++ y :: bs).insertRank rank e = as ++ e :: y :: bs := by
  induction as with
  | nil => rw [nil_append, insertRank_cons, if_neg (not_le.mpr hy), nil_append]
  | cons a as ih =>
    rw [cons_append, insertRank_cons, if_pos (has a mem_cons_self),
      ih fun b hb => has b (mem_cons_of_mem _ hb), cons_append]

/-- An element that no other outranks goes to the end. -/
theorem insertRank_eq_append {rank : α → κ} {e : α} {l : List α}
    (hl : ∀ a ∈ l, rank a ≤ rank e) : l.insertRank rank e = l ++ [e] := by
  induction l with
  | nil => rfl
  | cons a as ih =>
    rw [insertRank_cons, if_pos (hl a mem_cons_self), ih fun b hb => hl b (mem_cons_of_mem _ hb),
      cons_append]

/-! ## Sortedness -/

/-- An empty list is sorted. -/
@[simp] theorem rankSorted_nil (rank : α → κ) : ([] : List α).RankSorted rank :=
  Pairwise.nil

/-- The head is not behind any other element. -/
theorem rankSorted_cons {rank : α → κ} {x : α} {xs : List α} :
    (x :: xs).RankSorted rank ↔ (∀ y ∈ xs, rank x ≤ rank y) ∧ xs.RankSorted rank :=
  pairwise_cons

/-- The tail of a sorted list is sorted. -/
theorem RankSorted.tail {rank : α → κ} {l : List α} (h : l.RankSorted rank) :
    l.tail.RankSorted rank :=
  Pairwise.tail h

/-- A sorted list without an element is sorted. -/
theorem RankSorted.erase [BEq α] {rank : α → κ} {l : List α} (h : l.RankSorted rank) (e : α) :
    (l.erase e).RankSorted rank :=
  Pairwise.sublist erase_sublist h

/-- A sorted list with an inserted element is sorted. -/
theorem RankSorted.insertRank {rank : α → κ} {l : List α} (h : l.RankSorted rank) (e : α) :
    (l.insertRank rank e).RankSorted rank := by
  induction l with
  | nil => simp [RankSorted]
  | cons x xs ih =>
    obtain ⟨hx, hxs⟩ := rankSorted_cons.mp h
    rw [insertRank_cons]
    split
    · rename_i hle
      refine rankSorted_cons.mpr ⟨fun y hy => ?_, ih hxs⟩
      rcases mem_insertRank.mp hy with rfl | hy
      · exact hle
      · exact hx y hy
    · rename_i hlt
      have hex : rank e ≤ rank x := le_of_not_ge hlt
      refine rankSorted_cons.mpr ⟨fun y hy => ?_, h⟩
      rcases mem_cons.mp hy with rfl | hy
      · exact hex
      · exact hex.trans (hx y hy)

/-- Among the elements of one rank, the new element is the last. -/
theorem filter_insertRank {rank : α → κ} {l : List α} (h : l.RankSorted rank) (e : α) (r : κ) :
    (l.insertRank rank e).filter (rank · = r) =
      l.filter (rank · = r) ++ [e].filter (rank · = r) := by
  induction l with
  | nil => rfl
  | cons x xs ih =>
    obtain ⟨hx, hxs⟩ := rankSorted_cons.mp h
    rw [insertRank_cons]
    split
    · rw [filter_cons, filter_cons, ih hxs]
      split <;> rfl
    · rename_i hlt
      by_cases he : rank e = r
      · -- everything behind `e` has a larger rank
        have hnone : (x :: xs).filter (rank · = r) = [] := by
          refine filter_eq_nil_iff.mpr fun y hy => ?_
          have hlt' : rank e < rank y := by
            cases mem_cons.mp hy with
            | inl heq => exact heq ▸ not_le.mp hlt
            | inr hy => exact (not_le.mp hlt).trans_le (hx y hy)
          simp [← he, hlt'.ne']
        rw [filter_cons_of_pos (by simp [he]), hnone]
        simp [he]
      · rw [filter_cons_of_neg (by simp [he])]
        simp [he]

/-- Insertion keeps any relation that holds between the new element and those that it
    is put behind or in front of. -/
theorem pairwise_insertRank {rank : α → κ} {R : α → α → Prop} {e : α} {l : List α}
    (hsort : l.RankSorted rank) (h : l.Pairwise R) (hbehind : ∀ x ∈ l, rank x ≤ rank e → R x e)
    (hfront : ∀ x ∈ l, rank e < rank x → R e x) : (l.insertRank rank e).Pairwise R := by
  induction l with
  | nil => exact pairwise_singleton R e
  | cons x xs ih =>
    obtain ⟨hx, hxs⟩ := rankSorted_cons.mp hsort
    obtain ⟨hR, hRs⟩ := pairwise_cons.mp h
    rw [insertRank_cons]
    split
    · rename_i hle
      have htail := ih hxs hRs (fun y hy => hbehind y (mem_cons_of_mem _ hy))
        fun y hy => hfront y (mem_cons_of_mem _ hy)
      refine pairwise_cons.mpr ⟨fun y hy => ?_, htail⟩
      cases mem_insertRank.mp hy with
      | inl heq => exact heq ▸ hbehind x mem_cons_self hle
      | inr hy => exact hR y hy
    · rename_i hgt
      have hlt : rank e < rank x := not_le.mp hgt
      refine pairwise_cons.mpr ⟨fun y hy => hfront y hy ?_, h⟩
      cases mem_cons.mp hy with
      | inl heq => exact heq ▸ hlt
      | inr hy => exact hlt.trans_le (hx y hy)

/-- Taking an element out again undoes its insertion. -/
theorem erase_insertRank [BEq α] [LawfulBEq α] (rank : α → κ) {e : α} {l : List α} (h : e ∉ l) :
    (l.insertRank rank e).erase e = l := by
  induction l with
  | nil => simp
  | cons x xs ih =>
    obtain ⟨hx, hxs⟩ := not_or.mp (mt mem_cons.mpr h)
    rw [insertRank_cons]
    split
    · have hbeq : (x == e) = false := by simpa using Ne.symm hx
      rw [erase_cons, hbeq, ih hxs]
      rfl
    · rw [erase_cons_head]

/-- The head of a sorted list has the smallest rank. -/
theorem RankSorted.head_le {rank : α → κ} {x y : α} {l : List α} (h : (x :: l).RankSorted rank)
    (hy : y ∈ x :: l) : rank x ≤ rank y := by
  rcases mem_cons.mp hy with rfl | hy
  · exact le_rfl
  · exact (rankSorted_cons.mp h).1 y hy

/-- Ranks of elements outside the list do not matter. -/
theorem RankSorted.congr {rank rank' : α → κ} {l : List α} (h : l.RankSorted rank)
    (hl : ∀ x ∈ l, rank x = rank' x) : l.RankSorted rank' :=
  Pairwise.imp_of_mem (fun ha hb hab => by rwa [← hl _ ha, ← hl _ hb]) h

/-! ## Changing the rank of a listed element in place -/

/-- Every neighbour of `t` in the list is on the right side of the rank `p`. -/
def FitsAt (rank : α → κ) (t : α) (p : κ) : List α → Prop
  | [] => True
  | [_] => True
  | x :: y :: l =>
    (y = t → rank x ≤ p) ∧ (x = t → p ≤ rank y) ∧ FitsAt rank t p (y :: l)

instance decidableFitsAt [DecidableEq α] (rank : α → κ) (t : α) (p : κ) :
    (l : List α) → Decidable (FitsAt rank t p l)
  | [] => isTrue trivial
  | [_] => isTrue trivial
  | _ :: y :: l =>
    have := decidableFitsAt rank t p (y :: l)
    inferInstanceAs (Decidable (_ ∧ _ ∧ _))

/-- Any rank fits for an element that is not in the list. -/
theorem fitsAt_of_not_mem {rank : α → κ} {t : α} {p : κ} {l : List α} (h : t ∉ l) :
    l.FitsAt rank t p := by
  induction l with
  | nil => trivial
  | cons x xs ih =>
    cases xs with
    | nil => trivial
    | cons y ys =>
      obtain ⟨hx, hxs⟩ := not_or.mp (mt mem_cons.mpr h)
      obtain ⟨hy, -⟩ := not_or.mp (mt mem_cons.mpr hxs)
      exact ⟨fun heq => absurd heq.symm hy, fun heq => absurd heq.symm hx, ih hxs⟩

/-- In a sorted list every rank fits where it is. -/
theorem RankSorted.fitsAt_self {rank : α → κ} {l : List α} (h : l.RankSorted rank) (t : α) :
    l.FitsAt rank t (rank t) := by
  induction l with
  | nil => trivial
  | cons x xs ih =>
    cases xs with
    | nil => trivial
    | cons y ys =>
      obtain ⟨hx, hxs⟩ := rankSorted_cons.mp h
      have hxy := hx y mem_cons_self
      exact ⟨fun heq => heq ▸ hxy, fun heq => heq ▸ hxy, ih hxs⟩

/-- A rank change that fits between the neighbours keeps the order. -/
theorem RankSorted.update [DecidableEq α] {rank : α → κ} {l : List α} {t : α} {p : κ}
    (h : l.RankSorted rank) (hnd : l.Nodup) (hfit : l.FitsAt rank t p) :
    l.RankSorted (Function.update rank t p) := by
  have : IsTrans α fun a b => Function.update rank t p a ≤ Function.update rank t p b :=
    ⟨fun _ _ _ => le_trans⟩
  suffices hc : l.IsChain fun a b => Function.update rank t p a ≤ Function.update rank t p b from
    isChain_iff_pairwise.mp hc
  -- t is compared with its two neighbours, so the order is followed as a chain
  induction l with
  | nil => exact .nil
  | cons x xs ih =>
    cases xs with
    | nil => exact .singleton _
    | cons y ys =>
      obtain ⟨hleft, hright, hrest⟩ := hfit
      obtain ⟨hx, hxs⟩ := rankSorted_cons.mp h
      obtain ⟨hne, hnd⟩ := nodup_cons.mp hnd
      have hxy : x ≠ y := fun heq => hne (heq ▸ mem_cons_self)
      refine .cons_cons ?_ (ih hxs hnd hrest)
      by_cases hxt : x = t
      · rw [hxt, Function.update_self, Function.update_of_ne (hxt ▸ hxy.symm)]
        exact hright hxt
      · by_cases hyt : y = t
        · rw [hyt, Function.update_self, Function.update_of_ne hxt]
          exact hleft hyt
        · rw [Function.update_of_ne hxt, Function.update_of_ne hyt]
          exact hx y mem_cons_self

/-! ## First come, first served -/

/-- `l` has the elements of `members` in ascending order of the rank, and those of one
    rank in the order in which `members` has them. -/
structure StableSortOf (rank : α → κ) (members l : List α) : Prop where
  sorted : l.RankSorted rank
  nodup : members.Nodup
  fifo : ∀ r, l.filter (rank · = r) = members.filter (rank · = r)

namespace StableSortOf

variable {rank rank' : α → κ} {members l : List α} {e : α}

/-- Nothing sorted is nothing. -/
theorem nil (rank : α → κ) : StableSortOf rank [] [] := ⟨rankSorted_nil rank, .nil, fun _ => rfl⟩

/-- Sorting changes no member. -/
theorem mem_iff (h : StableSortOf rank members l) (e : α) : e ∈ l ↔ e ∈ members := by
  have hmem := congrArg (e ∈ ·) (h.fifo (rank e))
  simpa using hmem

/-- Sorting makes no list empty. -/
theorem eq_nil_iff (h : StableSortOf rank members l) : l = [] ↔ members = [] := by
  rw [eq_nil_iff_forall_not_mem, eq_nil_iff_forall_not_mem]
  exact forall_congr' fun e => not_congr (h.mem_iff e)

/-- Only the order of the ranks matters. -/
theorem congr (h : StableSortOf rank members l)
    (hrank : ∀ x ∈ members, ∀ y ∈ members, rank' x ≤ rank' y ↔ rank x ≤ rank y) :
    StableSortOf rank' members l := by
  refine ⟨?_, h.nodup, fun r => ?_⟩
  · apply Pairwise.imp_of_mem _ h.sorted
    intro x y hx hy hxy
    exact (hrank x ((h.mem_iff x).mp hx) y ((h.mem_iff y).mp hy)).mpr hxy
  · by_cases hr : ∃ x ∈ members, rank' x = r
    · obtain ⟨x, hx, rfl⟩ := hr
      have hfilter (l : List α) (hl : ∀ y ∈ l, y ∈ members) :
          l.filter (rank' · = rank' x) = l.filter (rank · = rank x) := by
        apply filter_congr
        intro y hy
        have hyx := hrank y (hl y hy) x hx
        have hxy := hrank x hx y (hl y hy)
        exact decide_eq_decide.mpr (by rw [le_antisymm_iff, le_antisymm_iff, hyx, hxy])
      rw [hfilter l fun y hy => (h.mem_iff y).mp hy, hfilter members fun y hy => hy, h.fifo]
    · have hnone (l : List α) (hl : ∀ y ∈ l, y ∈ members) : l.filter (rank' · = r) = [] := by
        apply filter_eq_nil_iff.mpr
        intro y hy
        simpa using fun heq => hr ⟨y, hl y hy, heq⟩
      rw [hnone l fun y hy => (h.mem_iff y).mp hy, hnone members fun y hy => hy]

/-- A new element is the last of its rank. -/
theorem insert (h : StableSortOf rank members l) (he : e ∉ members)
    (hrank : ∀ x ∈ members, rank' x = rank x) :
    StableSortOf rank' (members ++ [e]) (l.insertRank rank' e) := by
  have h' : StableSortOf rank' members l :=
    h.congr fun x hx y hy => by rw [hrank x hx, hrank y hy]
  refine ⟨h'.sorted.insertRank e, ?_, fun r => ?_⟩
  · rw [nodup_append_comm]
    exact nodup_cons.mpr ⟨he, h.nodup⟩
  · rw [filter_insertRank h'.sorted, filter_append, h'.fifo]

variable [DecidableEq α]

/-- The sorted list has no element twice. -/
theorem nodup_list (h : StableSortOf rank members l) : l.Nodup := by
  apply nodup_iff_count_le_one.mpr
  intro e
  have hcount (l : List α) : (l.filter (rank · = rank e)).count e = l.count e :=
    count_filter (by simp)
  rw [← hcount, h.fifo, hcount]
  exact nodup_iff_count_le_one.mp h.nodup e

/-- Erasing from both keeps the order. -/
theorem erase (h : StableSortOf rank members l) (e : α) :
    StableSortOf rank (members.erase e) (l.erase e) := by
  refine ⟨h.sorted.erase e, h.nodup.erase e, fun r => ?_⟩
  rw [h.nodup_list.erase_eq_filter, h.nodup.erase_eq_filter, filter_comm, h.fifo, filter_comm]

end StableSortOf

/-! ## Searching -/

/-- Searching for an element tells if it is there. -/
theorem find?_eq_ite_mem {β : Type*} [DecidableEq β] (l : List β) (a : β) :
    l.find? (fun x => x = a) = if a ∈ l then some a else none := by
  induction l with
  | nil => rfl
  | cons x xs ih =>
    rw [find?_cons, ih]
    by_cases hx : x = a
    · simp [hx]
    · simp [hx, Ne.symm hx]

/-! ## Largest values -/

/-- A loop that keeps the largest value of `f` on the elements that satisfy `p`,
    starting from `d`. -/
theorem isGreatest_foldl {f : α → κ} {p : α → Prop} [DecidablePred p] (l : List α) (d : κ) :
    IsGreatest {y | y = d ∨ ∃ x ∈ l, p x ∧ f x = y}
      (l.foldl (fun m x => if p x ∧ m < f x then f x else m) d) := by
  induction l generalizing d with
  | nil => simp
  | cons z zs ih =>
    rw [foldl_cons]
    -- either the head is the new greatest so far, or the one before stays
    by_cases hz : p z ∧ d < f z
    · rw [if_pos hz]
      obtain ⟨hmem, hle⟩ := ih (f z)
      constructor
      · rcases hmem with heq | ⟨x, hx, hp, heq⟩
        · exact .inr ⟨z, mem_cons_self, hz.1, heq.symm⟩
        · exact .inr ⟨x, mem_cons_of_mem _ hx, hp, heq⟩
      · rintro y (rfl | ⟨x, hx, hp, rfl⟩)
        · exact hz.2.le.trans (hle (.inl rfl))
        · rcases mem_cons.mp hx with rfl | hx
          · exact hle (.inl rfl)
          · exact hle (.inr ⟨x, hx, hp, rfl⟩)
    · rw [if_neg hz]
      obtain ⟨hmem, hle⟩ := ih d
      constructor
      · rcases hmem with heq | ⟨x, hx, hp, heq⟩
        · exact .inl heq
        · exact .inr ⟨x, mem_cons_of_mem _ hx, hp, heq⟩
      · rintro y (rfl | ⟨x, hx, hp, rfl⟩)
        · exact hle (.inl rfl)
        · rcases mem_cons.mp hx with rfl | hx
          · -- the head is not above what is there already
            have hxd : f x ≤ d := not_lt.mp fun hlt => hz ⟨hp, hlt⟩
            exact hxd.trans (hle (.inl rfl))
          · exact hle (.inr ⟨x, hx, hp, rfl⟩)

end List

/-- The largest element of a set is that of another one exactly if each has something as
    large for every element of the other. -/
theorem IsGreatest.iff_isCofinalFor {α : Type*} [PartialOrder α] {s t : Set α} {a : α}
    (h : IsGreatest s a) : IsGreatest t a ↔ IsCofinalFor s t ∧ IsCofinalFor t s := by
  constructor
  · intro ht
    exact ⟨fun b hb => ⟨a, ht.1, h.2 hb⟩, fun b hb => ⟨a, h.1, ht.2 hb⟩⟩
  · intro ⟨hst, hts⟩
    have hle : a ∈ upperBounds t := fun b hb =>
      let ⟨c, hc, hbc⟩ := hts hb
      hbc.trans (h.2 hc)
    obtain ⟨b, hb, hab⟩ := hst h.1
    exact ⟨hab.antisymm (hle hb) ▸ hb, hle⟩
