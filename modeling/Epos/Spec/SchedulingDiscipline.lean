import Epos.ForStd.TransitionSystem
import Epos.Spec.LinkedListCorrect

/-!
# The discipline of a scheduling list

A `Scheduling_List` on its own, with elements that are always eligible. Over any
sequence of its operations it stays sorted and holds what has been inserted and not
removed, and `choose()` takes the elements of the smallest rank in turn: `turns` is the
order in which it will, and each call takes the first to the end.
-/

namespace Epos

namespace SchedulingList

variable {rank : Tid → Int} {l : SchedulingList} {e x : Tid} {r : Int}

/-! ## Turns -/

/-- The elements of the rank `r`, the chosen one last. -/
def turns (rank : Tid → Int) (l : SchedulingList) (r : Int) : List Tid :=
  l.list.filter (rank · = r) ++ l.chosen.toList.filter (rank · = r)

/-- Who takes turns at a rank. -/
theorem mem_turns : x ∈ l.turns rank r ↔ x ∈ l.toList ∧ rank x = r := by
  unfold turns toList
  simp only [List.mem_append, List.mem_filter, decide_eq_true_eq]
  rw [or_comm, or_and_right]

/-- How many they are. -/
theorem length_turns : (l.turns rank r).length = l.toList.countP (rank · = r) := by
  unfold turns toList
  rw [List.length_append, ← List.countP_eq_length_filter, ← List.countP_eq_length_filter,
    List.countP_append, Nat.add_comm]

/-- `choose()` takes the first in turn, which is then the last. -/
theorem turns_choose (hs : l.list.RankSorted rank) (hc : l.chosen = some e)
    (hmin : ∀ y ∈ l.toList, r ≤ rank y) {q : List Tid} (ht : l.turns rank r = x :: q) :
    (l.choose rank fun _ => true).chosen = some x ∧
      (l.choose rank fun _ => true).turns rank r = q ++ [x] := by
  have hx := mem_turns.mp (ht ▸ List.mem_cons_self : x ∈ l.turns rank r)
  unfold choose
  cases hl : l.list with
  | nil =>
    rw [toList, hl, hc, List.append_nil, Option.toList_some, List.mem_singleton] at hx
    obtain ⟨rfl, hr⟩ := hx
    simp only [turns, hl, hc, Option.toList_some, List.filter_nil, List.nil_append] at ht ⊢
    rw [List.filter_cons_of_pos (by simp [hr]), List.filter_nil] at ht ⊢
    obtain ⟨-, rfl⟩ := List.cons.inj ht
    exact ⟨trivial, rfl⟩
  | cons h t =>
    have hturns : (l.list.insertRank rank e).filter (rank · = r) = x :: q := by
      rw [List.filter_insertRank hs, ← ht, turns, hc, Option.toList_some]
    have hsort := hs.insertRank e
    rw [hl] at hturns hsort
    simp only [hc, if_true]
    cases hins : (h :: t).insertRank rank e with
    | nil => simp [hins] at hturns
    | cons y ys =>
      rw [hins] at hturns hsort
      -- The head has the smallest rank, and `x` has this one.
      have hmem (z : Tid) : z ∈ y :: ys ↔ z ∈ l.toList := by
        rw [← hins, List.mem_insertRank, mem_toList, hc, hl, Option.some.injEq, eq_comm]
      have hxy : x ∈ y :: ys := (hmem x).mpr hx.1
      have hy : rank y = r :=
        le_antisymm (hx.2 ▸ hsort.head_le hxy) (hmin y ((hmem y).mp List.mem_cons_self))
      rw [List.filter_cons_of_pos (by simp [hy])] at hturns
      obtain ⟨rfl, hq⟩ := List.cons.inj hturns
      refine ⟨rfl, ?_⟩
      show ys.filter (rank · = r) ++ [y].filter (rank · = r) = q ++ [y]
      rw [hq, List.filter_cons_of_pos (by simp [hy]), List.filter_nil]

end SchedulingList

/-! ## Runs -/

/-- A scheduling list in memory, the ranks of the elements, and what has been inserted
    and removed so far. -/
structure Discipline where
  list : Option (LinkedSchedulingList Tid)
  rank : Tid → Int
  inserted : List Tid := []
  removed : List Tid := []

inductive SchedulingAction where
  | insert (e : Tid)
  | remove (e : Tid)
  | choose
  | chooseAnother
  | chooseElement (e : Tid)
  | setRank (e : Tid) (r : Int)
  deriving DecidableEq, Repr

namespace Discipline

def step (σ : Discipline) : SchedulingAction → Discipline
  | .insert e =>
    { σ with list := σ.list.bind (·.insert σ.rank e), inserted := e :: σ.inserted }
  | .remove e => { σ with list := σ.list.bind (·.remove e), removed := e :: σ.removed }
  | .choose => { σ with list := σ.list.bind (·.choose σ.rank fun _ => true) }
  | .chooseAnother =>
    { σ with list := σ.list.bind (·.chooseAnother σ.rank (fun _ => true) Priority.idle) }
  | .chooseElement e => { σ with list := σ.list.bind (·.chooseElement σ.rank e) }
  | .setRank e r => { σ with rank := Function.update σ.rank e r }

/-- `e` has been inserted and not removed since. -/
def Member (σ : Discipline) (e : Tid) : Prop :=
  σ.removed.count e < σ.inserted.count e

def chosen (σ : Discipline) : Option Tid := σ.list.bind (·.chosen)

/-- The rank of an element changes only while it is outside the list. -/
def CanStep (σ : Discipline) : SchedulingAction → Prop
  | .insert e => ¬σ.Member e
  | .remove e | .chooseElement e => σ.Member e
  | .choose | .chooseAnother => True
  | .setRank e _ => ¬σ.Member e ∨ σ.chosen = some e

instance (σ : Discipline) (e : Tid) : Decidable (σ.Member e) :=
  inferInstanceAs (Decidable (_ < _))

instance (σ : Discipline) (a : SchedulingAction) : Decidable (σ.CanStep a) := by
  cases a <;> unfold CanStep <;> infer_instance

/-- A list starts empty; what the links of the elements hold is left open. -/
def Empty (σ : Discipline) : Prop :=
  (∃ L, σ.list = some { links := L, header := {}, chosen := none }) ∧
    σ.inserted = [] ∧ σ.removed = []

end Discipline

open Discipline in
def discipline : TransitionSystem Discipline SchedulingAction where
  Init := Discipline.Empty
  Enabled := CanStep
  next := Discipline.step

instance (σ : Discipline) (a : SchedulingAction) : Decidable (discipline.Enabled σ a) :=
  inferInstanceAs (Decidable (σ.CanStep a))

namespace Discipline

/-! ## The invariant -/

/-- The list in memory is `l`, which is sorted and holds the members. -/
structure Inv (σ : Discipline) (l : SchedulingList) : Prop where
  represents : ∃ s, σ.list = some s ∧ s.Represents l
  sorted : l.list.RankSorted σ.rank
  conserved : (l.toList ++ σ.removed).Perm σ.inserted
  nodup : l.toList.Nodup
  chosen_none : l.chosen = none → l.list = []

variable {σ : Discipline} {l : SchedulingList} {e x : Tid}

/-- The invariant holds for an empty list. -/
theorem Empty.inv (h : σ.Empty) : σ.Inv {} := by
  obtain ⟨⟨L, hlist⟩, hin, hout⟩ := h
  refine ⟨⟨_, hlist, ⟨rfl, rfl, rfl, trivial⟩, rfl⟩, List.rankSorted_nil _, ?_, List.nodup_nil,
    fun _ => rfl⟩
  rw [hin, hout]
  exact .refl []

/-- The members are the elements. -/
theorem Inv.member_iff (h : σ.Inv l) : σ.Member e ↔ e ∈ l.toList := by
  have hcount := h.conserved.count_eq e
  rw [List.count_append] at hcount
  unfold Member
  rw [← List.count_pos_iff]
  omega

/-- The chosen thread is that of the abstract list. -/
theorem Inv.chosen_eq (h : σ.Inv l) : σ.chosen = l.chosen := by
  obtain ⟨s, heq, hr⟩ := h.represents
  unfold Discipline.chosen
  rw [heq]
  exact hr.chosen

/-- With nothing chosen the list is empty. -/
theorem Inv.isSome (h : σ.Inv l) (he : e ∈ l.toList) : l.chosen.isSome := by
  cases hc : l.chosen with
  | some x => rfl
  | none =>
    rw [SchedulingList.toList, hc, h.chosen_none hc] at he
    cases he

/-- `insert()` keeps the invariant. -/
theorem Inv.insert (h : σ.Inv l) (he : ¬σ.Member e) :
    (σ.step (.insert e)).Inv (l.insert σ.rank e) := by
  have hne : e ∉ l.toList := fun hmem => he (h.member_iff.mpr hmem)
  obtain ⟨s, heq, hr⟩ := h.represents
  obtain ⟨s', heq', hm⟩ :
      ∃ s', s.insert σ.rank e = some s' ∧ s.Moves s' (l.insert σ.rank e) (e :: l.list) :=
    hr.insert fun hmem => hne (SchedulingList.mem_toList_of_list hmem)
  have hperm : (l.insert σ.rank e).toList.Perm (e :: l.toList) := SchedulingList.insert_perm
  refine ⟨⟨s', ?_, hm.represents⟩, SchedulingList.insert_sorted h.sorted, ?_, ?_, ?_⟩
  · show σ.list.bind _ = _
    rw [heq]
    exact heq'
  · exact (hperm.append_right _).trans (h.conserved.cons e)
  · exact hperm.nodup_iff.mpr (List.nodup_cons.mpr ⟨hne, h.nodup⟩)
  · unfold SchedulingList.insert
    split
    · rename_i x hx
      exact fun hnone => absurd (hx.symm.trans hnone) (by simp)
    · exact fun hnone => by cases hnone

/-- `remove()` keeps the invariant. -/
theorem Inv.remove (h : σ.Inv l) (he : σ.Member e) : (σ.step (.remove e)).Inv (l.remove e) := by
  have hmem := h.member_iff.mp he
  obtain ⟨s, heq, hr⟩ := h.represents
  obtain ⟨s', heq', hm⟩ := hr.remove hmem
  have hremove : (l.remove e).toList = l.toList.erase e := SchedulingList.remove_toList
  refine ⟨⟨s', ?_, hm.represents⟩, SchedulingList.remove_sorted h.sorted, ?_, ?_, ?_⟩
  · show σ.list.bind _ = _
    rw [heq]
    exact heq'
  · rw [hremove]
    refine List.Perm.trans ?_ h.conserved
    exact List.perm_middle.trans ((List.perm_cons_erase hmem).symm.append_right σ.removed)
  · rw [hremove]
    exact h.nodup.erase e
  · unfold SchedulingList.remove
    split
    · intro hnone
      rw [List.head?_eq_none_iff.mp hnone, List.tail_nil]
    · intro hnone
      show l.list.erase e = []
      rw [h.chosen_none hnone, List.erase_nil]

/-- An operation that only permutes the elements. -/
theorem Inv.permute (h : σ.Inv l) {l' : SchedulingList}
    {f : LinkedSchedulingList Tid → Option (LinkedSchedulingList Tid)}
    (hf : ∀ s : LinkedSchedulingList Tid, s.Represents l → ∃ s', f s = some s' ∧ s'.Represents l')
    (hsorted : l'.list.RankSorted σ.rank) (hperm : l'.toList.Perm l.toList)
    (hsome : l.chosen.isSome → l'.chosen.isSome) :
    ({ σ with list := σ.list.bind f } : Discipline).Inv l' := by
  obtain ⟨s, heq, hr⟩ := h.represents
  obtain ⟨s', heq', hr'⟩ := hf s hr
  refine ⟨⟨s', ?_, hr'⟩, hsorted, ?_, hperm.nodup_iff.mpr h.nodup, fun hnone => ?_⟩
  · show σ.list.bind f = _
    rw [heq]
    exact heq'
  · exact (hperm.append_right _).trans h.conserved
  · refine List.eq_nil_iff_forall_not_mem.mpr fun x hx => ?_
    have hold := hsome (h.isSome (hperm.mem_iff.mp (SchedulingList.mem_toList_of_list hx)))
    rw [hnone] at hold
    cases hold

/-- A list without a chosen thread is empty. -/
theorem Inv.empty (h : σ.Inv l) (hc : l.chosen = none) {s : LinkedSchedulingList Tid}
    (hs : s.Represents l) : s.empty = true := by
  rw [LinkedList.Represents.empty_eq hs.list, h.chosen_none hc]
  rfl

/-- `choose()` keeps the invariant. -/
theorem Inv.choose (h : σ.Inv l) :
    (σ.step .choose).Inv (l.choose σ.rank fun _ => true) := by
  refine h.permute (fun s hs => ?_) (SchedulingList.choose_sorted h.sorted)
    SchedulingList.choose_perm SchedulingList.choose_isSome
  cases hc : l.chosen with
  | some x =>
    obtain ⟨s', heq, hm⟩ := hs.choose (Option.isSome_of_mem hc) h.nodup
    exact ⟨s', heq, hm.represents⟩
  | none =>
    refine ⟨s, if_pos (h.empty hc hs), ?_⟩
    rw [SchedulingList.choose_eq_self (by simp [h.chosen_none hc])]
    exact hs

/-- `choose_another()` keeps the invariant. -/
theorem Inv.chooseAnother (h : σ.Inv l) :
    (σ.step .chooseAnother).Inv (l.chooseAnother σ.rank fun _ => true) := by
  refine h.permute (fun s hs => ?_) (SchedulingList.chooseAnother_sorted h.sorted)
    SchedulingList.chooseAnother_perm SchedulingList.chooseAnother_isSome
  cases hc : l.chosen with
  | some x =>
    obtain ⟨s', heq, hm⟩ := hs.chooseAnother (Option.isSome_of_mem hc) h.nodup
    exact ⟨s', heq, hm.represents⟩
  | none =>
    refine ⟨s, if_pos (h.empty hc hs), ?_⟩
    simpa [SchedulingList.chooseAnother, hc] using hs

/-- `choose(e)` keeps the invariant. -/
theorem Inv.chooseElement (h : σ.Inv l) (he : σ.Member e) :
    (σ.step (.chooseElement e)).Inv (l.chooseElement σ.rank e) := by
  have hmem := h.member_iff.mp he
  have hsome := h.isSome hmem
  refine h.permute (fun s hs => ?_) (SchedulingList.chooseElement_sorted h.sorted)
    (SchedulingList.chooseElement_perm hmem) fun _ => ?_
  · obtain ⟨s', heq, hm⟩ := hs.chooseElement hmem hsome h.nodup
    exact ⟨s', heq, hm.represents⟩
  · rw [SchedulingList.chooseElement_chosen hsome]
    rfl

/-- The rank of the chosen thread, or of none that is listed, may change. -/
theorem Inv.setRank (h : σ.Inv l) {r : Int} (he : ¬σ.Member e ∨ σ.chosen = some e) :
    (σ.step (.setRank e r)).Inv l := by
  have hne : e ∉ l.list := by
    cases he with
    | inl hnot =>
      exact fun hmem => hnot (h.member_iff.mpr (SchedulingList.mem_toList_of_list hmem))
    | inr hch => exact SchedulingList.not_mem_list h.nodup (h.chosen_eq.symm.trans hch)
  refine ⟨h.represents, h.sorted.congr fun x hx => ?_, h.conserved, h.nodup, h.chosen_none⟩
  have hxe : x ≠ e := fun heq => hne (heq ▸ hx)
  exact (Function.update_of_ne hxe r σ.rank).symm

/-- Every step keeps the invariant. -/
theorem Inv.step (h : σ.Inv l) {a : SchedulingAction} (ha : σ.CanStep a) :
    ∃ l', (σ.step a).Inv l' := by
  cases a with
  | insert e => exact ⟨_, h.insert ha⟩
  | remove e => exact ⟨_, h.remove ha⟩
  | choose => exact ⟨_, h.choose⟩
  | chooseAnother => exact ⟨_, h.chooseAnother⟩
  | chooseElement e => exact ⟨_, h.chooseElement ha⟩
  | setRank e r => exact ⟨l, h.setRank ha⟩

/-! ## What the list is for -/

/-- In memory there is a sorted list of what has been inserted and not removed. -/
def Conserves (σ : Discipline) : Prop :=
  ∃ s l, σ.list = some s ∧ s.Represents l ∧ l.list.RankSorted σ.rank ∧
    (l.toList ++ σ.removed).Perm σ.inserted

/-- `choose()` takes a member of the smallest rank, if there is one. -/
def ChoosesMinimal (σ : Discipline) : Prop :=
  ∀ e, σ.Member e → ∃ x, (discipline.next σ .choose).chosen = some x ∧ σ.Member x ∧
    σ.rank x ≤ σ.rank e

/-- The members of the rank `r`. -/
def countRank (σ : Discipline) (r : Int) : Nat :=
  σ.inserted.countP (σ.rank · = r) - σ.removed.countP (σ.rank · = r)

/-- Each member of the smallest rank is chosen by one of the next calls of `choose()`, of
    which there are as many as such members. -/
def TakesTurns (σ : Discipline) : Prop :=
  ∀ e, σ.Member e → (∀ x, σ.Member x → σ.rank e ≤ σ.rank x) →
    ∃ i < σ.countRank (σ.rank e),
      (discipline.run σ (List.replicate (i + 1) .choose)).chosen = some e

/-- No thread is lost or comes twice. -/
theorem Inv.conserves (h : σ.Inv l) : σ.Conserves := by
  obtain ⟨s, heq, hr⟩ := h.represents
  exact ⟨s, l, heq, hr, h.sorted, h.conserved⟩

/-- The chosen thread is the most urgent one. -/
theorem Inv.choosesMinimal (h : σ.Inv l) : σ.ChoosesMinimal := by
  intro e he
  have hmem := h.member_iff.mp he
  obtain ⟨y, hy⟩ := Option.isSome_iff_exists.mp (h.isSome hmem)
  show ∃ x, (σ.step .choose).chosen = some x ∧ _
  rw [h.choose.chosen_eq]
  cases hl : l.list with
  | nil =>
    -- The chosen element is the only one.
    obtain rfl : e = y := by simpa [SchedulingList.toList, hl, hy] using hmem
    rw [SchedulingList.choose_eq_self (by simp [hl])]
    exact ⟨e, hy, he, le_rfl⟩
  | cons z q =>
    obtain ⟨x, hx, hle⟩ : ∃ x, (l.choose σ.rank fun _ => true).chosen = some x ∧
        ∀ y ∈ l.toList, σ.rank x ≤ σ.rank y :=
      SchedulingList.choose_urgent h.sorted hy hl rfl
    have hmem' := SchedulingList.choose_perm.mem_iff.mp (SchedulingList.mem_toList_of_chosen hx)
    exact ⟨x, hx, h.member_iff.mpr hmem', hle e hmem⟩

/-- The element behind `u` in turn is chosen after the elements of `u`. -/
theorem Inv.chosen_run {r : Int} {u v : List Tid} (h : σ.Inv l)
    (hmin : ∀ x ∈ l.toList, r ≤ σ.rank x) (ht : l.turns σ.rank r = u ++ e :: v) :
    (discipline.run σ (List.replicate (u.length + 1) .choose)).chosen = some e := by
  have he : e ∈ l.turns σ.rank r := by simp [ht]
  obtain ⟨y, hy⟩ := Option.isSome_iff_exists.mp (h.isSome (SchedulingList.mem_turns.mp he).1)
  clear he
  induction u generalizing σ l v y with
  | nil =>
    show (σ.step .choose).chosen = some e
    rw [h.choose.chosen_eq]
    exact (SchedulingList.turns_choose h.sorted hy hmin ht).1
  | cons z u ih =>
    obtain ⟨hch, hturns⟩ := SchedulingList.turns_choose h.sorted hy hmin ht
    have hmin' (w : Tid) (hw : w ∈ (l.choose σ.rank fun _ => true).toList) : r ≤ σ.rank w :=
      hmin w (SchedulingList.choose_perm.mem_iff.mp hw)
    have hassoc : u.append (e :: v) ++ [z] = u ++ e :: (v ++ [z]) := List.append_assoc u _ _
    rw [hassoc] at hturns
    exact ih h.choose hmin' hturns z hch

/-- Threads of one rank take turns. -/
theorem Inv.takesTurns (h : σ.Inv l) : σ.TakesTurns := by
  intro e he hmin
  have hmem := h.member_iff.mp he
  have hturn : e ∈ l.turns σ.rank (σ.rank e) := SchedulingList.mem_turns.mpr ⟨hmem, rfl⟩
  obtain ⟨u, v, huv⟩ := List.append_of_mem hturn
  refine ⟨u.length, ?_, h.chosen_run (fun x hx => hmin x (h.member_iff.mpr hx)) huv⟩
  have hlen : (l.turns σ.rank (σ.rank e)).length = σ.countRank (σ.rank e) := by
    rw [SchedulingList.length_turns, countRank, ← h.conserved.countP_eq, List.countP_append,
      Nat.add_sub_cancel]
  rw [← hlen, huv, List.length_append, List.length_cons]
  omega

/-- What a scheduling list promises in every state. -/
structure Disciplined (σ : Discipline) : Prop where
  conserves : σ.Conserves
  choosesMinimal : σ.ChoosesMinimal
  takesTurns : σ.TakesTurns

end Discipline

open Discipline

/-- Along every run no thread is lost, the most urgent one is chosen, and equals take turns. -/
theorem disciplined_of_run {σ : Discipline} (hσ : σ.Empty) (as : List SchedulingAction)
    (hv : discipline.Valid σ as) : discipline.Always Disciplined σ as := by
  have hinv : discipline.Always (fun σ => ∃ l, σ.Inv l) σ as := by
    refine TransitionSystem.Meets.always (fun σ a hi ha _ => ?_) ⟨_, hσ.inv⟩ hv
      (TransitionSystem.meets_true _ _)
    obtain ⟨l, hl⟩ := hi
    exact hl.step ha
  refine hinv.imp fun σ hi => ?_
  obtain ⟨l, hl⟩ := hi
  exact ⟨hl.conserves, hl.choosesMinimal, hl.takesTurns⟩

/-- Three elements, two of them of one rank, and a change of a rank. -/
theorem disciplined_of_run_three : discipline.Always Disciplined
    { list := some { links := ⟨fun _ => none, fun _ => none⟩, header := {}, chosen := none }
      rank := fun e => if e = 1 then 5 else 3 }
    [.insert 1, .insert 2, .insert 3, .choose, .choose, .chooseElement 1, .setRank 1 2,
      .chooseAnother, .remove 2, .choose] :=
  disciplined_of_run ⟨⟨_, rfl⟩, rfl, rfl⟩ _ (by decide)

end Epos
