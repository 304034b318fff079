import Epos.ForStd.Span
import Epos.Kernel.GroupingList
import Epos.Spec.LinkedListCorrect

/-!
# Ranges that are split and merged

What `search_decrementing` takes from the listed ranges is the end of one of them, and
`insert_merging` adds a range and joins it to its neighbours.
-/

namespace Epos

namespace GroupingList

variable {g : GroupingList} {l : List Nat} {size : Nat → Nat} {slack : Option Nat} {e k s : Nat}

/-- The ranges of the elements in `l`. -/
def spans (size : Nat → Nat) (l : List Nat) : List Span := l.map fun e => ⟨e, size e⟩

/-- The list holds the elements of `l`, whose ranges cover no object twice. -/
structure Groups (g : GroupingList) (l : List Nat) : Prop where
  represents : g.list.Represents l
  pos : ∀ t ∈ spans g.size l, 0 < t.size
  nodup : (spans g.size l).cells.Nodup
  total : g.groupedSize = (spans g.size l).cells.length

/-! ## The ranges of a list -/

/-- The spans are those of the listed elements. -/
theorem mem_spans {t : Span} : t ∈ spans size l ↔ t.start ∈ l ∧ t.size = size t.start := by
  unfold spans
  rw [List.mem_map]
  constructor
  · rintro ⟨e, he, rfl⟩
    exact ⟨he, rfl⟩
  · rintro ⟨he, hs⟩
    exact ⟨t.start, he, by rw [← hs]⟩

/-- Every listed element has one. -/
theorem mem_spans_of_mem (size : Nat → Nat) (he : e ∈ l) : ⟨e, size e⟩ ∈ spans size l := mem_spans.mpr ⟨he, rfl⟩

/-- One element more. -/
theorem spans_cons : spans size (e :: l) = ⟨e, size e⟩ :: spans size l := rfl

/-- The order does not matter. -/
theorem spans_perm {l' : List Nat} (h : l.Perm l') : (spans size l).Perm (spans size l') :=
  h.map _

/-- The size of an element that is not listed does not matter. -/
theorem spans_update_of_notMem (he : e ∉ l) :
    spans (Function.update size e k) l = spans size l := by
  refine List.map_congr_left fun x hx => ?_
  rw [Function.update_of_ne (ne_of_mem_of_not_mem hx he)]

/-- The spans with one element apart. -/
theorem spans_erase (size : Nat → Nat) (he : e ∈ l) :
    (spans size l).Perm (⟨e, size e⟩ :: spans size (l.erase e)) :=
  spans_perm (List.perm_cons_erase he)

/-- The spans with one size changed. -/
theorem spans_update (hl : l.Nodup) (he : e ∈ l) :
    (spans (Function.update size e k) l).Perm (⟨e, k⟩ :: spans size (l.erase e)) := by
  have hperm := spans_erase (Function.update size e k) he
  rwa [Function.update_self, spans_update_of_notMem hl.not_mem_erase] at hperm

/-! ## Searching -/

/-- The search on the links finds what the search in the list finds. -/
theorem find_eq (h : g.list.Represents l) (p : Nat → Bool) : g.find p = some (l.find? p) := by
  have hhead : g.list.header.head = l.head? := h.head
  unfold find
  rw [hhead]
  exact LinkedList.findFrom_eq h.linked.chained h.length_le_scanFuel

/-- `search()` finds a listed element. -/
theorem search_eq (h : g.list.Represents l) (obj : Nat) :
    g.search obj = some (if obj ∈ l then some obj else none) := by
  rw [search, find_eq h, List.find?_eq_ite_mem]

/-- What fits is large enough. -/
theorem le_of_fits {n : Nat} (h : fits slack s n) : s ≤ n := by
  cases slack with
  | none => simpa [fits] using h
  | some m =>
    simp only [fits, decide_eq_true_eq] at h
    omega

/-! ## Taking from a range -/

/-- A request that is cut from a span. -/
theorem Groups.cut {g' : GroupingList} {l' : List Nat} (h : Groups g l)
    (hrep : g'.list.Represents l') (hcut : (spans g.size l).Cut e k s (spans g'.size l'))
    (htotal : g'.groupedSize = g.groupedSize - s) : Groups g' l' where
  represents := hrep
  pos := hcut.le_size (m := 1) (Nat.eq_zero_or_pos k) h.pos
  nodup := by
    have hnd := hcut.cells.nodup_iff.mp h.nodup
    exact (List.nodup_append.mp hnd).2.1
  total := by
    have hlen := hcut.cells.length_eq
    rw [List.length_append, Span.length_cells] at hlen
    rw [htotal, h.total, hlen]
    dsimp only
    omega

/-- Nothing is taken where no range is large enough. -/
theorem Groups.searchDecrementing (h : Groups g l) (slack : Option Nat) (s : Nat) :
    (g.searchDecrementing slack s = some (none, g) ∧
      ∀ t ∈ spans g.size l, ¬fits slack s t.size) ∨
    ∃ e g' l', g.searchDecrementing slack s = some (some e, g') ∧
      g.searchSize slack s = some (some e) ∧ Groups g' l' ∧ fits slack s (g'.size e + s) ∧
      (spans g.size l).Cut e (g'.size e) s (spans g'.size l') := by
  unfold GroupingList.searchDecrementing searchSize
  rw [find_eq h.represents]
  cases hfind : l.find? fun e => fits slack s (g.size e) with
  | none =>
    refine .inl ⟨rfl, fun t ht hfits => ?_⟩
    obtain ⟨hmem, hsize⟩ := mem_spans.mp ht
    rw [hsize] at hfits
    exact List.find?_eq_none.mp hfind _ hmem hfits
  | some e =>
    right
    have he : e ∈ l := List.mem_of_find?_eq_some hfind
    have hfits : fits slack s (g.size e) :=
      List.find?_some (p := fun e => fits slack s (g.size e)) hfind
    have hnd := h.represents.nodup
    have hsplit : g.size e - s + s = g.size e := Nat.sub_add_cancel (le_of_fits hfits)
    have herase : (spans g.size l).Perm
        (⟨e, g.size e - s + s⟩ :: spans g.size (l.erase e)) := by
      rw [hsplit]
      exact spans_erase g.size he
    simp only [Option.bind_eq_bind, Option.bind_some, Function.update_self]
    by_cases hk : g.size e - s = 0
    · -- nothing is left of the range
      obtain ⟨q', heq, hmoves⟩ := h.represents.remove he
      simp only [heq, if_pos hk, Option.map_some]
      have hcut : (spans g.size l).Cut e (g.size e - s) s
          (spans (Function.update g.size e (g.size e - s)) (l.erase e)) := by
        refine ⟨_, herase, ?_⟩
        rw [if_pos hk, spans_update_of_notMem hnd.not_mem_erase]
      refine ⟨e, _, l.erase e, rfl, rfl, h.cut hmoves.represents hcut rfl, ?_⟩
      simp only [Function.update_self, hsplit]
      exact ⟨hfits, hcut⟩
    · simp only [if_neg hk]
      have hcut : (spans g.size l).Cut e (g.size e - s) s
          (spans (Function.update g.size e (g.size e - s)) l) := by
        refine ⟨_, herase, ?_⟩
        rw [if_neg hk]
        exact spans_update hnd he
      refine ⟨e, _, l, rfl, rfl, h.cut h.represents hcut rfl, ?_⟩
      simp only [Function.update_self, hsplit]
      exact ⟨hfits, hcut⟩

/-! ## Adding a range -/

/-- A span that is joined with its neighbours. -/
theorem Groups.join {g' : GroupingList} {l' : List Nat} {t : Span} (h : Groups g l)
    (ht : 0 < t.size) (hnd : (t.cells ++ (spans g.size l).cells).Nodup)
    (hrep : g'.list.Represents l') (hjoin : (spans g.size l).Joined t (spans g'.size l'))
    (htotal : g'.groupedSize = g.groupedSize + t.size) : Groups g' l' where
  represents := hrep
  pos := hjoin.le_size (k := 1) ht h.pos
  nodup := hjoin.cells.nodup_iff.mpr hnd
  total := by
    have hlen := hjoin.cells.length_eq
    rw [List.length_append, Span.length_cells] at hlen
    rw [htotal, h.total, hlen, Nat.add_comm]

/-- The range of `e` is not of those that are listed. -/
theorem Groups.notMem_of_disjoint (h : Groups g l)
    (hnd : (Span.cells ⟨e, s⟩ ++ (spans g.size l).cells).Nodup) (hs : 0 < s) : e ∉ l := by
  intro he
  have hmem := mem_spans_of_mem g.size he
  have hfst : e ∈ Span.cells ⟨e, s⟩ := Span.start_mem (s := ⟨e, s⟩) hs
  have hsnd := Span.start_mem (h.pos _ hmem)
  exact (List.nodup_append.mp hnd).2.2 e hfst e (List.mem_cells.mpr ⟨_, hmem, hsnd⟩) rfl

/-- `search_left()` finds the element that ends there, if any. -/
theorem searchLeft_cases (h : g.list.Represents l) (obj : Nat) :
    (g.searchLeft obj = some none ∧ ∀ t ∈ spans g.size l, t.stop ≠ obj) ∨
    ∃ x ∈ l, g.searchLeft obj = some (some x) ∧ x + g.size x = obj := by
  unfold searchLeft
  rw [find_eq h]
  cases hfind : l.find? fun x => x + g.size x = obj with
  | none =>
    refine .inl ⟨rfl, fun t ht => ?_⟩
    obtain ⟨hmem, hsize⟩ := mem_spans.mp ht
    have hne := List.find?_eq_none.mp hfind _ hmem
    rw [decide_eq_true_eq, ← hsize] at hne
    exact hne
  | some x =>
    have heq := List.find?_some (p := fun x => x + g.size x = obj) hfind
    exact .inr ⟨x, List.mem_of_find?_eq_some hfind, rfl, of_decide_eq_true heq⟩

/-- The range of `e` is added and joined to the ranges of `r` and `x`. -/
theorem merge_eq {r x : Option Nat} (h : g.list.Represents l)
    (hpos : ∀ t ∈ spans g.size l, 0 < t.size) (hout : e ∉ l)
    (hr : r = if e + g.size e ∈ l then some (e + g.size e) else none)
    (hnone : x = none → ∀ t ∈ spans g.size l, t.stop ≠ e)
    (hsome : ∀ y, x = some y → y ∈ l ∧ y + g.size y = e) :
    ∃ g' l', g.merge e r x = some g' ∧ g'.list.Represents l' ∧
      g'.groupedSize = g.groupedSize ∧
      (spans g.size l).Joined ⟨e, g.size e⟩ (spans g'.size l') := by
  have hl := h.nodup
  unfold merge
  -- the right neighbour is a range of the list, and is absorbed
  by_cases hmem : e + g.size e ∈ l
  · rw [if_pos hmem] at hr
    subst hr
    have hout' : e ∉ l.erase (e + g.size e) := mt List.mem_of_mem_erase hout
    have hright : (spans g.size l).JoinRight ⟨e, g.size e⟩ _ _ := .some (spans_erase g.size hmem) rfl
    cases x with
    | none =>
      obtain ⟨q₁, hins, hmoves⟩ := h.insertTail hout
      obtain ⟨q₂, hrem, hmoves'⟩ := hmoves.represents.remove (List.mem_append_left _ hmem)
      simp only [hins, hrem, Option.map_some, Option.bind_eq_bind, Option.bind_some]
      refine ⟨_, _, rfl, hmoves'.represents, rfl, _, _, hright, _, .none ?_, ?_⟩
      · exact fun t ht => hnone rfl t (hright.subset ht)
      · rw [List.erase_append_left _ hmem]
        refine (spans_perm List.perm_append_comm).trans ?_
        dsimp only
        rw [List.singleton_append, spans_cons, Function.update_self, spans_update_of_notMem hout']
    | some y =>
      obtain ⟨hy, hstop⟩ := hsome y rfl
      obtain ⟨q₁, hrem, hmoves⟩ := h.remove hmem
      simp only [hrem, Option.map_some, Option.bind_eq_bind, Option.bind_some]
      -- the left neighbour is another range than the right one, as none is empty
      have hyr : y ≠ e + g.size e := by
        have hsize := hpos _ (mem_spans_of_mem g.size hy)
        dsimp only at hsize
        omega
      have hy' : y ∈ l.erase (e + g.size e) := (List.mem_erase_of_ne hyr).mpr hy
      have hye : y ≠ e := ne_of_mem_of_not_mem hy hout
      refine ⟨_, _, rfl, hmoves.represents, rfl, _, _, hright, _,
        .some (spans_erase g.size hy') hstop, ?_⟩
      refine (spans_update (hl.erase _) hy').trans ?_
      rw [Function.update_of_ne hye, Function.update_self,
        spans_update_of_notMem (mt List.mem_of_mem_erase hout')]
  · rw [if_neg hmem] at hr
    subst hr
    have hright : (spans g.size l).JoinRight ⟨e, g.size e⟩ (spans g.size l) ⟨e, g.size e⟩ := by
      refine .none fun t ht heq => hmem ?_
      have hstart := (mem_spans.mp ht).1
      rwa [← heq] at hstart
    cases x with
    | none =>
      obtain ⟨q₁, hins, hmoves⟩ := h.insertTail hout
      simp only [hins, Option.map_some, Option.bind_eq_bind, Option.bind_some]
      exact ⟨_, _, rfl, hmoves.represents, rfl, _, _, hright, _, .none (hnone rfl),
        spans_perm List.perm_append_comm⟩
    | some y =>
      obtain ⟨hy, hstop⟩ := hsome y rfl
      exact ⟨_, _, rfl, h, rfl, _, _, hright, _, .some (spans_erase g.size hy) hstop,
        spans_update hl hy⟩

/-- `insert_merging()` keeps the list grouped. -/
theorem Groups.insertMerging (h : Groups g l) (he : 0 < g.size e)
    (hnd : (Span.cells ⟨e, g.size e⟩ ++ (spans g.size l).cells).Nodup) :
    ∃ g' l', g.insertMerging e = some g' ∧ Groups g' l' ∧
      (spans g.size l).Joined ⟨e, g.size e⟩ (spans g'.size l') := by
  have hout : e ∉ l := h.notMem_of_disjoint hnd he
  let g₁ : GroupingList := { g with groupedSize := g.groupedSize + g.size e }
  have hsearch := search_eq (g := g₁) h.represents (e + g.size e)
  have hleft := searchLeft_cases (g := g₁) h.represents e
  have hmerge : ∃ x, g₁.searchLeft e = some x ∧ (x = none → ∀ t ∈ spans g.size l, t.stop ≠ e) ∧
      (∀ y, x = some y → y ∈ l ∧ y + g.size y = e) := by
    rcases hleft with ⟨heq, hnone⟩ | ⟨x, hx, heq, hstop⟩
    · exact ⟨none, heq, fun _ => hnone, nofun⟩
    · refine ⟨some x, heq, nofun, fun y hy => ?_⟩
      obtain rfl := Option.some.inj hy
      exact ⟨hx, hstop⟩
  obtain ⟨x, hx, hnone, hsome⟩ := hmerge
  obtain ⟨g', l', heq, hrep, htotal, hjoin⟩ :=
    merge_eq (g := g₁) h.represents h.pos hout rfl hnone hsome
  refine ⟨g', l', ?_, h.join he hnd hrep hjoin htotal, hjoin⟩
  unfold GroupingList.insertMerging
  show (g₁.search (e + g.size e)).bind (fun r => (g₁.searchLeft e).bind (g₁.merge e r)) = some g'
  rw [hsearch, Option.bind_some, hx, Option.bind_some]
  exact heq

/-- An element is constructed and its range is added. -/
theorem Groups.construct_insertMerging {t : Span} (h : Groups g l) (ht : 0 < t.size)
    (hnd : (t.cells ++ (spans g.size l).cells).Nodup) :
    ∃ g' l', (g.construct t.start t.size).insertMerging t.start = some g' ∧ Groups g' l' ∧
      (spans g.size l).Joined t (spans g'.size l') := by
  have hout : t.start ∉ l := h.notMem_of_disjoint hnd ht
  have hself : (g.construct t.start t.size).size t.start = t.size := Function.update_self ..
  have hspans : spans (g.construct t.start t.size).size l = spans g.size l :=
    spans_update_of_notMem hout
  have hoff : g.list.links.EqOff (g.construct t.start t.size).list.links [t.start] :=
    (Links.EqOff.setPrev (by simp)).trans (Links.EqOff.setNext (by simp))
  have hg : Groups (g.construct t.start t.size) l :=
    ⟨h.represents.congr hoff fun x hx => by simpa using ne_of_mem_of_not_mem hx hout,
      by rw [hspans]; exact h.pos, by rw [hspans]; exact h.nodup, by rw [hspans]; exact h.total⟩
  have hjoin := hg.insertMerging (e := t.start)
  rw [hself, hspans] at hjoin
  exact hjoin ht hnd

end GroupingList

end Epos
