import Epos.Kernel.GroupingLists
import Epos.Spec.LinkedListCorrect
import Epos.Spec.SimpleListCorrect

/-!
# The grouping lists agree

The two lists insert and remove in different orders and end up with the same elements in
the same order. What they hold are free ranges that are not adjacent, unless the sum that
`search_size(s)` compares with wraps and a range is found that is smaller than `s`.
-/

namespace Epos

variable {α : Type*} [DecidableEq α] {z : GroupingSizes} {g : FreeRanges α} {e : α} {s : Nat}

namespace FreeRanges

/-- The ranges without the right neighbour, whose objects `e` gets. -/
def absorb (g : FreeRanges α) (e : α) (r : Option α) : FreeRanges α where
  toGrouping := r.elim g.toGrouping (g.add e)
  list := r.elim g.list g.list.erase

/-- `e` is listed, or the left neighbour gets its objects. -/
def attach (g : FreeRanges α) (e : α) (l : Option α) : FreeRanges α where
  toGrouping := l.elim g.toGrouping fun l => g.add l e
  list := l.elim (g.list ++ [e]) fun _ => g.list

/-- With the objects of `e` in the sum of all. -/
def grown (g : FreeRanges α) (e : α) : FreeRanges α :=
  { g with toGrouping := g.grow (g.size e) }

/-- What `insert_merging` returns, and the ranges that it leaves. -/
theorem insertMerging_eq (z : GroupingSizes) (g : FreeRanges α) (e : α) :
    g.insertMerging z e =
      (.merged (g.list.find? (g.object · = g.stop z e))
          ((g.list.find? (g.stop z · = g.object e)).map fun _ => e),
        ((g.grown e).absorb e (g.list.find? (g.object · = g.stop z e))).attach e
          (g.list.find? (g.stop z · = g.object e))) := rfl

/-- An element that is not listed stays so. -/
theorem notMem_absorb {r : Option α} (he : e ∉ g.list) : e ∉ (g.absorb e r).list := by
  cases r with
  | none => exact he
  | some r => exact mt List.mem_of_mem_erase he

end FreeRanges

/-! ## Both lists are the sequence of ranges -/

namespace SimpleGroupingList

variable {q : SimpleGroupingList α}

omit [DecidableEq α] in
structure Represents (q : SimpleGroupingList α) (g : FreeRanges α) : Prop where
  grouping : q.toGrouping = g.toGrouping
  list : q.list.Represents g.list

omit [DecidableEq α] in
/-- The search on the links finds what the search in the list finds. -/
theorem Represents.find_eq (h : q.Represents g) (p : α → Bool) :
    q.find p = some (g.list.find? p) := by
  have hhead : q.list.header.head = g.list.head? := h.list.head
  unfold SimpleGroupingList.find
  rw [hhead]
  exact LinkedList.findFrom_eq h.list.chained h.list.length_le_findFuel

/-- A new element is outside of the list. -/
theorem Represents.construct (h : q.Represents g) (he : e ∉ g.list) (obj n : Nat) :
    (q.construct e obj n).Represents (g.construct e obj n) := by
  refine ⟨?_, ?_⟩
  · show q.toGrouping.construct e obj n = g.toGrouping.construct e obj n
    rw [h.grouping]
  · refine ⟨h.list.size, h.list.head, h.list.tail, h.list.chained.congr fun x hx => ?_⟩
    exact Function.update_of_ne (ne_of_mem_of_not_mem hx he) _ _

/-- Merging with a right neighbour, on the links. -/
theorem Represents.absorb (h : q.Represents g) {r : Option α} (hr : ∀ x ∈ r, x ∈ g.list) :
    ∃ q', q.absorb e r = some q' ∧ q'.Represents (g.absorb e r) := by
  cases r with
  | none => exact ⟨q, rfl, h⟩
  | some r =>
    obtain ⟨list, heq, hlist⟩ := h.list.remove (hr r rfl)
    refine ⟨{ toGrouping := q.add e r, list := list }, ?_, ?_, hlist⟩
    · show (q.list.remove r).map _ = _
      rw [heq]
      rfl
    · show q.toGrouping.add e r = g.toGrouping.add e r
      rw [h.grouping]

/-- Merging with a left neighbour or inserting, on the links. -/
theorem Represents.attach (h : q.Represents g) (he : e ∉ g.list) (l : Option α) :
    ∃ q', q.attach e l = some q' ∧ q'.Represents (g.attach e l) := by
  cases l with
  | none =>
    obtain ⟨list, heq, hlist⟩ := h.list.insertTail he
    refine ⟨{ q with list := list }, ?_, h.grouping, hlist⟩
    show (q.list.insertTail e).map _ = _
    rw [heq]
    rfl
  | some l =>
    refine ⟨_, rfl, ?_, h.list⟩
    show q.toGrouping.add l e = g.toGrouping.add l e
    rw [h.grouping]

/-- `insert_merging`, on the links. -/
theorem Represents.insertMerging (h : q.Represents g) (he : e ∉ g.list) :
    ∃ q', q.insertMerging z e = some ((g.insertMerging z e).1, q') ∧
      q'.Represents (g.insertMerging z e).2 := by
  obtain ⟨grouping, list⟩ := q
  obtain ⟨rfl, hlist⟩ := h
  let q₀ : SimpleGroupingList α := { toGrouping := g.grow (g.size e), list := list }
  have hgrown : q₀.Represents (g.grown e) := ⟨rfl, hlist⟩
  have hr (x : α) (hx : x ∈ g.list.find? (g.object · = g.stop z e)) : x ∈ g.list :=
    List.mem_of_find?_eq_some hx
  obtain ⟨q₁, heq₁, h₁⟩ := hgrown.absorb (e := e) hr
  obtain ⟨q₂, heq₂, h₂⟩ := h₁.attach (FreeRanges.notMem_absorb he)
    (g.list.find? (g.stop z · = g.object e))
  refine ⟨q₂, ?_, h₂⟩
  show ((q₀.find (g.object · = g.stop z e)).bind fun r =>
    (q₀.find (g.stop z · = g.object e)).bind fun l => (q₀.absorb e r).bind fun q =>
      (q.attach e l).bind fun q => some (GroupingReport.merged r (l.map fun _ => e), q)) = _
  rw [hgrown.find_eq, Option.bind_some, hgrown.find_eq, Option.bind_some]
  show ((q₀.absorb e (g.list.find? (g.object · = g.stop z e))).bind fun q =>
    (q.attach e (g.list.find? (g.stop z · = g.object e))).bind fun q => some (_, q)) = _
  rw [heq₁, Option.bind_some, heq₂, Option.bind_some]
  rfl

/-- `search_decrementing`, on the links. -/
theorem Represents.searchDecrementing (h : q.Represents g) :
    ∃ q', q.searchDecrementing z s = some ((g.searchDecrementing z s).1, q') ∧
      q'.Represents (g.searchDecrementing z s).2 := by
  obtain ⟨grouping, list⟩ := q
  obtain ⟨rfl, hlist⟩ := h
  have hq : (SimpleGroupingList.mk g.toGrouping list).Represents g := ⟨rfl, hlist⟩
  unfold SimpleGroupingList.searchDecrementing FreeRanges.searchDecrementing
  rw [hq.find_eq]
  cases hfind : g.list.find? fun e => Grouping.fits z s (g.size e) with
  | none => exact ⟨_, rfl, hq⟩
  | some e =>
    show ∃ q', (if (g.shrink e s).size e = 0 then (list.remove e).map _ else some _) = _ ∧ _
    by_cases hzero : (g.shrink e s).size e = 0
    · obtain ⟨list', heq, hlist'⟩ := hlist.remove (List.mem_of_find?_eq_some hfind)
      rw [if_pos hzero, heq]
      refine ⟨_, rfl, rfl, ?_⟩
      show list'.Represents (if (g.shrink e s).size e = 0 then g.list.erase e else g.list)
      rw [if_pos hzero]
      exact hlist'
    · rw [if_neg hzero]
      refine ⟨_, rfl, rfl, ?_⟩
      show list.Represents (if (g.shrink e s).size e = 0 then g.list.erase e else g.list)
      rw [if_neg hzero]
      exact hlist

end SimpleGroupingList

namespace LinkedGroupingList

variable {q : LinkedGroupingList α}

omit [DecidableEq α] in
structure Represents (q : LinkedGroupingList α) (g : FreeRanges α) : Prop where
  grouping : q.toGrouping = g.toGrouping
  list : q.list.Represents g.list

omit [DecidableEq α] in
/-- The search on the links finds what the search in the list finds. -/
theorem Represents.find_eq (h : q.Represents g) (p : α → Bool) :
    q.find p = some (g.list.find? p) := by
  have hhead : q.list.header.head = g.list.head? := h.list.head
  unfold LinkedGroupingList.find
  rw [hhead]
  exact LinkedList.findFrom_eq h.list.linked.chained h.list.length_le_scanFuel

/-- A new element is outside of the list. -/
theorem Represents.construct (h : q.Represents g) (he : e ∉ g.list) (obj n : Nat) :
    (q.construct e obj n).Represents (g.construct e obj n) := by
  refine ⟨?_, ?_⟩
  · show q.toGrouping.construct e obj n = g.toGrouping.construct e obj n
    rw [h.grouping]
  · have hoff : q.list.links.EqOff ((q.list.links.setPrev e none).setNext e none) [e] :=
      (Links.EqOff.setPrev (List.mem_singleton_self e)).trans
        (.setNext (List.mem_singleton_self e))
    exact Links.Represents.congr h.list hoff fun x hx => by
      simpa using ne_of_mem_of_not_mem hx he

/-- Where the simple list inserts after it has removed, this one inserts before. -/
theorem Represents.insertMerging (h : q.Represents g) (he : e ∉ g.list) :
    ∃ q', q.insertMerging z e = some ((g.insertMerging z e).1, q') ∧
      q'.Represents (g.insertMerging z e).2 := by
  obtain ⟨grouping, list⟩ := q
  obtain ⟨rfl, hlist⟩ := h
  let q₀ : LinkedGroupingList α := { toGrouping := g.grow (g.size e), list := list }
  have hgrown : q₀.Represents (g.grown e) := ⟨rfl, hlist⟩
  have hmerge (r l : Option α) (hr : ∀ x ∈ r, x ∈ g.list) :
      ∃ q', ((q₀.append e l).bind fun q => (q.absorb e r).bind fun q =>
          some (GroupingReport.merged r (l.map fun _ => e), q.extend e l)) =
            some (GroupingReport.merged r (l.map fun _ => e), q') ∧
        q'.Represents (((g.grown e).absorb e r).attach e l) := by
    cases l with
    | some l =>
      cases r with
      | none => exact ⟨_, rfl, rfl, hlist⟩
      | some r =>
        obtain ⟨list₁, heq₁, hmoves₁⟩ := hlist.remove (hr r rfl)
        have habsorb : q₀.absorb e (some r) =
            some { toGrouping := q₀.add e r, list := list₁ } := by
          show (list.remove r).map _ = _
          rw [heq₁]
          rfl
        let q₁ : LinkedGroupingList α := { toGrouping := q₀.add e r, list := list₁ }
        refine ⟨q₁.extend e (some l), ?_, rfl, hmoves₁.represents⟩
        show ((q₀.absorb e (some r)).bind fun q => some (_, q.extend e (some l))) = _
        rw [habsorb]
        rfl
    | none =>
      obtain ⟨list₁, heq₁, hmoves₁⟩ := hlist.insertTail he
      have happend : q₀.append e none = some { q₀ with list := list₁ } := by
        show (list.insertTail e).map _ = _
        rw [heq₁]
        rfl
      rw [happend, Option.bind_some]
      cases r with
      | none => exact ⟨_, rfl, rfl, hmoves₁.represents⟩
      | some r =>
        have hmem : r ∈ g.list := hr r rfl
        obtain ⟨list₂, heq₂, hmoves₂⟩ :=
          hmoves₁.represents.remove (List.mem_append_left [e] hmem)
        have habsorb : ({ q₀ with list := list₁ } : LinkedGroupingList α).absorb e (some r) =
            some { toGrouping := q₀.add e r, list := list₂ } := by
          show (list₁.remove r).map _ = _
          rw [heq₂]
          rfl
        -- To append and to erase another element is to erase it and to append.
        rw [habsorb]
        refine ⟨_, rfl, rfl, ?_⟩
        show list₂.Represents (g.list.erase r ++ [e])
        rw [← List.erase_append_left _ hmem]
        exact hmoves₂.represents
  have hr (x : α) (hx : x ∈ g.list.find? (g.object · = g.stop z e)) : x ∈ g.list :=
    List.mem_of_find?_eq_some hx
  obtain ⟨q', heq, hq'⟩ := hmerge _ (g.list.find? (g.stop z · = g.object e)) hr
  refine ⟨q', ?_, hq'⟩
  show ((q₀.find (g.object · = g.stop z e)).bind fun r =>
    (q₀.find (g.stop z · = g.object e)).bind fun l => (q₀.append e l).bind fun q =>
      (q.absorb e r).bind fun q =>
        some (GroupingReport.merged r (l.map fun _ => e), q.extend e l)) = _
  rw [hgrown.find_eq, Option.bind_some, hgrown.find_eq, Option.bind_some]
  exact heq

/-- `search_decrementing`, on the links. -/
theorem Represents.searchDecrementing (h : q.Represents g) :
    ∃ q', q.searchDecrementing z s = some ((g.searchDecrementing z s).1, q') ∧
      q'.Represents (g.searchDecrementing z s).2 := by
  obtain ⟨grouping, list⟩ := q
  obtain ⟨rfl, hlist⟩ := h
  have hq : (LinkedGroupingList.mk g.toGrouping list).Represents g := ⟨rfl, hlist⟩
  unfold LinkedGroupingList.searchDecrementing FreeRanges.searchDecrementing
  rw [hq.find_eq]
  cases hfind : g.list.find? fun e => Grouping.fits z s (g.size e) with
  | none => exact ⟨_, rfl, hq⟩
  | some e =>
    show ∃ q', (if (g.shrink e s).size e = 0 then (list.remove e).map _ else some _) = _ ∧ _
    by_cases hzero : (g.shrink e s).size e = 0
    · obtain ⟨list', heq, hmoves⟩ := hlist.remove (List.mem_of_find?_eq_some hfind)
      rw [if_pos hzero, heq]
      refine ⟨_, rfl, rfl, ?_⟩
      show list'.Represents (if (g.shrink e s).size e = 0 then g.list.erase e else g.list)
      rw [if_pos hzero]
      exact hmoves.represents
    · rw [if_neg hzero]
      refine ⟨_, rfl, rfl, ?_⟩
      show list.Represents (if (g.shrink e s).size e = 0 then g.list.erase e else g.list)
      rw [if_neg hzero]
      exact hlist

end LinkedGroupingList

namespace GroupingRun

variable {r : GroupingRun α} {a : GroupingAction α}

/-- Both lists are the sequence of ranges, and they have reported the same. -/
def Agree (r : GroupingRun α) : Prop :=
  ∃ q q', r.simple = some q ∧ r.linked = some q' ∧ q.Represents r.ranges ∧
    q'.Represents r.ranges ∧ r.simpleReports = r.linkedReports ∧ none ∉ r.simpleReports

/-- The lists agree at the beginning. -/
theorem agree_init (h : (groupingSystem α z).Init r) : r.Agree := by
  obtain ⟨hlist, -, hsimple, hlinked, ⟨next, hq⟩, ⟨links, hq'⟩⟩ := h
  refine ⟨_, _, hq, hq', ⟨rfl, ?_⟩, ⟨rfl, ?_⟩, hsimple.trans hlinked.symm, ?_⟩
  · rw [hlist]
    exact ⟨rfl, rfl, rfl, trivial⟩
  · rw [hlist]
    exact ⟨rfl, rfl, rfl, trivial⟩
  · rw [hsimple]
    exact List.not_mem_nil

/-- Every step keeps them in agreement. -/
theorem Agree.step (h : r.Agree) (ha : r.CanAct z a) : (r.step z a).Agree := by
  obtain ⟨q, q', hsimple, hlinked, hq, hq', hreports, hnone⟩ := h
  -- both lists do what the same call does to the ranges
  have hcalls : ∃ p p', callSimple z q a = some ((callRanges z r.ranges a).1, p) ∧
      callLinked z q' a = some ((callRanges z r.ranges a).1, p') ∧
      p.Represents (callRanges z r.ranges a).2 ∧ p'.Represents (callRanges z r.ranges a).2 := by
    cases a with
    | insert e obj n =>
      obtain ⟨p, heq, hp⟩ := (hq.construct ha.1 obj n).insertMerging (z := z) ha.1
      obtain ⟨p', heq', hp'⟩ := (hq'.construct ha.1 obj n).insertMerging (z := z) ha.1
      exact ⟨p, p', heq, heq', hp, hp'⟩
    | take s =>
      obtain ⟨p, heq, hp⟩ := hq.searchDecrementing (z := z) (s := s)
      obtain ⟨p', heq', hp'⟩ := hq'.searchDecrementing (z := z) (s := s)
      exact ⟨p, p', heq, heq', hp, hp'⟩
  obtain ⟨p, p', heq, heq', hp, hp'⟩ := hcalls
  refine ⟨p, p', ?_, ?_, hp, hp', ?_, ?_⟩
  · show (r.simple.bind _).map _ = _
    rw [hsimple, Option.bind_some, heq]
    rfl
  · show (r.linked.bind _).map _ = _
    rw [hlinked, Option.bind_some, heq']
    rfl
  · show (r.simple.bind _).map _ :: _ = (r.linked.bind _).map _ :: _
    rw [hsimple, hlinked, Option.bind_some, Option.bind_some, heq, heq', hreports]
    rfl
  · show none ∉ (r.simple.bind _).map _ :: _
    rw [hsimple, Option.bind_some, heq]
    simpa using hnone

end GroupingRun

/-! ## The ranges are free and not adjacent -/

namespace FreeRanges

variable {obj n : Nat}

/-- No two ranges overlap or are adjacent, none is empty, and all objects are counted. -/
structure WellFormed (z : GroupingSizes) (g : FreeRanges α) : Prop where
  pos : ∀ t ∈ g.spans z, 0 < t.size
  apart : (g.spans z).Pairwise Span.Apart
  unmerged : (g.spans z).Unmerged
  total : g.groupedSize = (g.list.map g.size).sum

/-- The ranges cover no byte twice, and all of them are in memory. -/
structure Inv (z : GroupingSizes) (g : FreeRanges α) : Prop where
  list_nodup : g.list.Nodup
  pos : ∀ e ∈ g.list, 0 < g.size e
  nodup : (g.spans z).cells.Nodup
  inside : ∀ x ∈ (g.spans z).cells, 0 < x ∧ x < 2 ^ 32
  unmerged : (g.spans z).Unmerged
  total : g.groupedSize = (g.list.map g.size).sum

omit [DecidableEq α] in
/-- The spans are those of the listed elements. -/
theorem mem_spans {t : Span} :
    t ∈ g.spans z ↔ ∃ e ∈ g.list, (⟨g.object e, z.object * g.size e⟩ : Span) = t := by
  unfold spans
  rw [List.mem_map]

omit [DecidableEq α] in
/-- No span is empty. -/
theorem Inv.span_pos (h : g.Inv z) : ∀ t ∈ g.spans z, 0 < t.size := by
  intro t ht
  obtain ⟨e, he, rfl⟩ := mem_spans.mp ht
  exact Nat.mul_pos z.object_pos (h.pos e he)

omit [DecidableEq α] in
/-- The invariant gives what is claimed of every state. -/
theorem Inv.wellFormed (h : g.Inv z) : g.WellFormed z where
  pos := h.span_pos
  apart := List.pairwise_apart h.nodup h.span_pos
  unmerged := h.unmerged
  total := h.total

omit [DecidableEq α] in
/-- The first and the last byte of a range. -/
theorem Inv.bounds (h : g.Inv z) (he : e ∈ g.list) :
    0 < g.object e ∧ g.object e + z.object * g.size e ≤ 2 ^ 32 := by
  have hmem : (⟨g.object e, z.object * g.size e⟩ : Span) ∈ g.spans z := mem_spans.mpr ⟨e, he, rfl⟩
  have hpos := h.span_pos _ hmem
  have hfirst := h.inside _ (List.mem_cells.mpr ⟨_, hmem, Span.start_mem hpos⟩)
  have hlast : g.object e + z.object * g.size e - 1 ∈
      Span.cells ⟨g.object e, z.object * g.size e⟩ := by
    rw [Span.mem_cells]
    unfold Span.stop
    dsimp only at hpos ⊢
    omega
  have hlast' := h.inside _ (List.mem_cells.mpr ⟨_, hmem, hlast⟩)
  dsimp only at hpos hfirst
  omega

omit [DecidableEq α] in
/-- The number of free cells, by the sizes. -/
theorem length_cells_spans (g : FreeRanges α) :
    (g.spans z).cells.length = z.object * (g.list.map g.size).sum := by
  rw [List.length_cells]
  unfold spans
  rw [List.map_map]
  induction g.list with
  | nil => rfl
  | cons x xs ih =>
    rw [List.map_cons, List.map_cons, List.sum_cons, List.sum_cons, ih, Nat.mul_add]
    rfl

/-! ### Adding a range -/

/-- The range of an element. -/
def span (z : GroupingSizes) (g : FreeRanges α) (e : α) : Span := ⟨g.object e, z.object * g.size e⟩

omit [DecidableEq α] in
/-- The spans only depend on the listed elements. -/
theorem spans_congr {g' : FreeRanges α} (hlist : g'.list = g.list)
    (hspan : ∀ x ∈ g.list, g'.span z x = g.span z x) : g'.spans z = g.spans z := by
  unfold spans
  rw [hlist]
  exact List.map_congr_left hspan

/-- The spans with one element apart. -/
theorem spans_erase (z : GroupingSizes) (he : e ∈ g.list) :
    (g.spans z).Perm (g.span z e :: (g.list.erase e).map (g.span z)) :=
  (List.perm_cons_erase he).map _

/-- The ranges after the size of one of them was set. -/
theorem spans_setSize (hnd : g.list.Nodup) (he : e ∈ g.list) {g' : FreeRanges α} {k : Nat}
    (hlist : g'.list = g.list) (hobject : g'.object = g.object)
    (hsize : g'.size = Function.update g.size e k) :
    (g'.spans z).Perm (⟨g.object e, z.object * k⟩ :: (g.list.erase e).map (g.span z)) := by
  have hself : g'.span z e = ⟨g.object e, z.object * k⟩ := by
    unfold span
    rw [hobject, hsize, Function.update_self]
  have hother : (g'.list.erase e).map (g'.span z) = (g.list.erase e).map (g.span z) := by
    rw [hlist]
    refine List.map_congr_left fun x hx => ?_
    have hne : x ≠ e := fun heq => hnd.not_mem_erase (heq ▸ hx)
    unfold span
    rw [hobject, hsize, Function.update_of_ne hne]
  rw [← hself, ← hother]
  exact spans_erase z (hlist ▸ he)

/-- A new element changes the size of no other one. -/
theorem size_construct (he : e ∉ g.list) {x : α} (hx : x ∈ g.list) :
    (g.construct e obj n).size x = g.size x :=
  Function.update_of_ne (ne_of_mem_of_not_mem hx he) _ _

/-- A new element changes no span. -/
theorem spans_construct (he : e ∉ g.list) : (g.construct e obj n).spans z = g.spans z := by
  refine spans_congr rfl fun x hx => ?_
  have hobject : (g.construct e obj n).object x = g.object x :=
    Function.update_of_ne (ne_of_mem_of_not_mem hx he) _ _
  unfold span
  rw [hobject, size_construct he hx]

/-- A new element keeps the invariant. -/
theorem Inv.construct (h : g.Inv z) (he : e ∉ g.list) : (g.construct e obj n).Inv z := by
  have hsize (x : α) (hx : x ∈ g.list) : (g.construct e obj n).size x = g.size x :=
    size_construct he hx
  have hspans : (g.construct e obj n).spans z = g.spans z := spans_construct he
  constructor
  · exact h.list_nodup
  · intro x hx
    rw [hsize x hx]
    exact h.pos x hx
  · rw [hspans]
    exact h.nodup
  · rw [hspans]
    exact h.inside
  · rw [hspans]
    exact h.unmerged
  · show g.groupedSize = (g.list.map (g.construct e obj n).size).sum
    rw [h.total, List.map_congr_left hsize]

omit [DecidableEq α] in
/-- What is found on the right begins where `e` ends. -/
theorem Inv.right_iff (h : g.Inv z)
    (hstop : g.object e + z.object * g.size e ≤ 2 ^ 32) {x : α} (hx : x ∈ g.list) :
    g.object x = g.stop z e ↔ (g.span z e).stop = (g.span z x).start := by
  obtain ⟨hx₀, hx₁⟩ := h.bounds hx
  have hxpos := Nat.mul_pos z.object_pos (h.pos x hx)
  show g.object x = (g.object e + z.object * g.size e) % 2 ^ 32 ↔
    g.object e + z.object * g.size e = g.object x
  cases Nat.lt_or_eq_of_le hstop with
  | inl hlt =>
    rw [Nat.mod_eq_of_lt hlt]
    exact eq_comm
  | inr heq =>
    rw [heq, Nat.mod_self]
    omega

omit [DecidableEq α] in
/-- What is found on the left ends where `e` begins. -/
theorem Inv.left_iff (h : g.Inv z) (hobj : 0 < g.object e) (hlt : g.object e < 2 ^ 32) {x : α}
    (hx : x ∈ g.list) : g.stop z x = g.object e ↔ (g.span z x).stop = (g.span z e).start := by
  obtain ⟨-, hx₁⟩ := h.bounds hx
  show (g.object x + z.object * g.size x) % 2 ^ 32 = g.object e ↔
    g.object x + z.object * g.size x = g.object e
  cases Nat.lt_or_eq_of_le hx₁ with
  | inl hlt => rw [Nat.mod_eq_of_lt hlt]
  | inr heq =>
    rw [heq, Nat.mod_self]
    omega

/-- `e` has got the objects of its right neighbour, if there is one. -/
structure Absorbed (z : GroupingSizes) (g : FreeRanges α) (e : α) (g' : FreeRanges α) : Prop where
  join : (g.spans z).JoinRight (g.span z e) (g'.spans z) (g'.span z e)
  object : g'.object = g.object
  sublist : g'.list.Sublist g.list
  size : ∀ x ∈ g'.list, g'.size x = g.size x
  stop_le : g.object e + z.object * g'.size e ≤ 2 ^ 32
  left_mem : ∀ y ∈ g.list, (g.span z y).stop = g.object e → y ∈ g'.list

/-- Merging with a right neighbour keeps the invariant, up to the left one. -/
theorem Inv.absorb (h : g.Inv z) (he : e ∉ g.list) (hobj : 0 < g.object e)
    (hpos : 0 < g.size e) (hstop : g.object e + z.object * g.size e ≤ 2 ^ 32) :
    g.Absorbed z e ((g.grown e).absorb e (g.list.find? (g.object · = g.stop z e))) := by
  cases hfind : g.list.find? (g.object · = g.stop z e) with
  | none =>
    refine ⟨.none ?_, rfl, .refl _, fun _ _ => rfl, hstop, fun y hy _ => hy⟩
    intro t ht heq
    obtain ⟨x, hx, rfl⟩ := mem_spans.mp ht
    have hne := List.find?_eq_none.mp hfind x hx
    exact hne (decide_eq_true ((h.right_iff hstop hx).mpr heq))
  | some x =>
    have hx : x ∈ g.list := List.mem_of_find?_eq_some hfind
    have hright : (g.span z e).stop = (g.span z x).start :=
      (h.right_iff hstop hx).mp (of_decide_eq_true (List.find?_some
        (p := fun x => decide (g.object x = g.stop z e)) hfind))
    have hright' : g.object e + z.object * g.size e = g.object x := hright
    obtain ⟨-, hx₁⟩ := h.bounds hx
    have hmul : z.object * (g.size e + g.size x) = z.object * g.size e + z.object * g.size x :=
      Nat.mul_add _ _ _
    have hsum : g.size e + g.size x < 2 ^ 32 := by
      have hle := Nat.le_mul_of_pos_left (g.size e + g.size x) z.object_pos
      omega
    let g' := (g.grown e).absorb e (some x)
    have hself : g'.size e = g.size e + g.size x := by
      show Function.update g.size e ((g.size e + g.size x) % 2 ^ 32) e = _
      rw [Function.update_self, Nat.mod_eq_of_lt hsum]
    have hother (y : α) (hy : y ∈ g.list) : g'.size y = g.size y :=
      Function.update_of_ne (ne_of_mem_of_not_mem hy he) _ _
    have hspans : g'.spans z = (g.list.erase x).map (g.span z) := by
      refine List.map_congr_left fun y hy => ?_
      have hsize := hother y (List.mem_of_mem_erase hy)
      show (⟨g.object y, z.object * g'.size y⟩ : Span) = _
      rw [hsize]
      rfl
    have hspan : g'.span z e = ⟨g.object e, z.object * g.size e + z.object * g.size x⟩ := by
      show (⟨g.object e, z.object * g'.size e⟩ : Span) = _
      rw [hself, hmul]
    refine ⟨?_, rfl, List.erase_sublist, ?_, ?_, ?_⟩
    · rw [hspans, hspan]
      exact .some (spans_erase z hx) hright
    · exact fun y hy => hother y (List.mem_of_mem_erase hy)
    · show g.object e + z.object * g'.size e ≤ 2 ^ 32
      rw [hself]
      omega
    · intro y hy hyleft
      -- The two neighbours are not the same range.
      have hne : y ≠ x := by
        intro heq
        subst heq
        have hyleft' : g.object y + z.object * g.size y = g.object e := hyleft
        have hepos := Nat.mul_pos z.object_pos hpos
        omega
      exact (List.mem_erase_of_ne hne).mpr hy

/-- The objects of `e` are listed, on their own or with its left neighbour. -/
theorem Absorbed.attach {g' : FreeRanges α} (habs : g.Absorbed z e g') (h : g.Inv z)
    (hobj : 0 < g.object e) (hlt : g.object e < 2 ^ 32) :
    let g'' := g'.attach e (g.list.find? (g.stop z · = g.object e))
    ∃ T, (g'.spans z).JoinLeft (g'.span z e) T ∧ (g''.spans z).Perm T := by
  intro g''
  cases hfind : g.list.find? (g.stop z · = g.object e) with
  | none =>
    have hlist : g''.list = g'.list ++ [e] := by
      show (g'.attach e _).list = _
      rw [hfind]
      rfl
    have hgrouping : g''.toGrouping = g'.toGrouping := by
      show (g'.attach e _).toGrouping = _
      rw [hfind]
      rfl
    -- no range stopped at `e`, and absorbing the right one does not make one stop there
    refine ⟨_, .none ?_, ?_⟩
    · intro t ht heq
      obtain ⟨x, hx, rfl⟩ := mem_spans.mp ht
      have hx' := habs.sublist.subset hx
      have hne := List.find?_eq_none.mp hfind x hx'
      refine hne (decide_eq_true ((h.left_iff hobj hlt hx').mpr ?_))
      rw [habs.object, habs.size x hx] at heq
      refine heq.trans ?_
      show g'.object e = g.object e
      rw [habs.object]
    · show (g''.list.map fun x => (⟨g''.object x, z.object * g''.size x⟩ : Span)).Perm _
      rw [hlist, hgrouping, List.map_append]
      exact List.perm_append_singleton _ _
  | some y =>
    have hy : y ∈ g.list := List.mem_of_find?_eq_some hfind
    -- `y` stops at `e`, and is not the range that was absorbed
    have hleft : (g.span z y).stop = (g.span z e).start :=
      (h.left_iff hobj hlt hy).mp (of_decide_eq_true (List.find?_some
        (p := fun x => decide (g.stop z x = g.object e)) hfind))
    have hy' : y ∈ g'.list := habs.left_mem y hy hleft
    have hleft' : (g'.span z y).stop = (g'.span z e).start := by
      show g'.object y + z.object * g'.size y = g'.object e
      rw [habs.object, habs.size y hy']
      exact hleft
    have hmul : z.object * (g'.size y + g'.size e) =
        z.object * g'.size y + z.object * g'.size e := Nat.mul_add _ _ _
    -- the sum is within the memory, so it does not wrap
    have hsum : g'.size y + g'.size e < 2 ^ 32 := by
      have hle := Nat.le_mul_of_pos_left (g'.size y + g'.size e) z.object_pos
      have hstop := habs.stop_le
      have hypos := (h.bounds hy).1
      have hstart : g.object y + z.object * g'.size y = g.object e := by
        rw [habs.size y hy']
        exact hleft
      omega
    have hperm : (g''.spans z).Perm (⟨g'.object y, z.object * (g'.size y + g'.size e)⟩ ::
        (g'.list.erase y).map (g'.span z)) := by
      apply spans_setSize (h.list_nodup.sublist habs.sublist) hy'
      · show (g'.attach e _).list = _
        rw [hfind]
        rfl
      · show (g'.attach e _).object = _
        rw [hfind]
        rfl
      · show (g'.attach e _).size = _
        rw [hfind]
        show Function.update g'.size y ((g'.size y + g'.size e) % 2 ^ 32) = _
        rw [Nat.mod_eq_of_lt hsum]
    rw [hmul] at hperm
    exact ⟨_, .some (spans_erase z hy') hleft', hperm⟩

/-- `insert_merging` keeps the invariant. -/
theorem Inv.insertMerging (h : g.Inv z) (he : e ∉ g.list) (hobj : 0 < g.object e)
    (hpos : 0 < g.size e) (hstop : g.object e + z.object * g.size e ≤ 2 ^ 32)
    (hapart : ∀ t ∈ g.spans z, t.Apart (g.span z e)) : (g.insertMerging z e).2.Inv z := by
  have hspos : 0 < (g.span z e).size := Nat.mul_pos z.object_pos hpos
  have hlt : g.object e < 2 ^ 32 := by
    have hspos' : 0 < z.object * g.size e := hspos
    omega
  have habs := h.absorb he hobj hpos hstop
  obtain ⟨T, hleft, hperm⟩ := habs.attach h hobj hlt
  have hjoin : (g.spans z).Joined (g.span z e) ((g.insertMerging z e).2.spans z) :=
    ⟨_, _, habs.join, T, hleft, hperm⟩
  have hcells := hjoin.cells
  have hnd : ((g.span z e).cells ++ (g.spans z).cells).Nodup := by
    refine List.nodup_append.mpr ⟨Span.nodup_cells, h.nodup, fun x hx y hy heq => ?_⟩
    subst heq
    obtain ⟨t, ht, hxt⟩ := List.mem_cells.mp hy
    rw [Span.mem_cells] at hx hxt
    cases hapart t ht with
    | inl hle => omega
    | inr hle => omega
  have hinside : ∀ x ∈ (g.span z e).cells ++ (g.spans z).cells, 0 < x ∧ x < 2 ^ 32 := by
    intro x hx
    cases List.mem_append.mp hx with
    | inl hx =>
      obtain ⟨hge, hlt'⟩ := Span.mem_cells.mp hx
      have hge' : g.object e ≤ x := hge
      have hlt'' : x < g.object e + z.object * g.size e := hlt'
      omega
    | inr hx => exact h.inside x hx
  have hinside' : ∀ x ∈ ((g.insertMerging z e).2.spans z).cells, 0 < x ∧ x < 2 ^ 32 :=
    fun x hx => hinside x (hcells.mem_iff.mp hx)
  have hnd' := hcells.nodup_iff.mpr hnd
  -- The bytes are counted by the lengths of the lists of cells.
  have hlen := hcells.length_eq
  rw [List.length_append, length_cells_spans, length_cells_spans, Span.length_cells] at hlen
  have hsum : ((g.insertMerging z e).2.list.map (g.insertMerging z e).2.size).sum =
      (g.list.map g.size).sum + g.size e := by
    refine Nat.eq_of_mul_eq_mul_left z.object_pos ?_
    rw [hlen, Nat.mul_add, Nat.add_comm]
    rfl
  constructor
  · have hnd₁ := h.list_nodup.sublist habs.sublist
    rw [insertMerging_eq]
    show (FreeRanges.attach _ e _).list.Nodup
    cases g.list.find? (g.stop z · = g.object e) with
    | none =>
      show (_ ++ [e]).Nodup
      rw [List.nodup_append_comm]
      exact List.nodup_cons.mpr ⟨fun hmem => he (habs.sublist.subset hmem), hnd₁⟩
    | some y => exact hnd₁
  · intro x hx
    have hsize := hjoin.le_size (k := 1) hspos h.span_pos _ (mem_spans.mpr ⟨x, hx, rfl⟩)
    exact Nat.pos_of_mul_pos_left hsize
  · exact hnd'
  · exact hinside'
  · exact hjoin.unmerged h.unmerged hspos
  · have hsmall : ((g.insertMerging z e).2.list.map (g.insertMerging z e).2.size).sum < 2 ^ 32 := by
      have hlt' := hnd'.length_lt hinside' (by decide)
      rw [length_cells_spans] at hlt'
      exact (Nat.le_mul_of_pos_left _ z.object_pos).trans_lt hlt'
    have hgrown : (g.insertMerging z e).2.groupedSize = (g.groupedSize + g.size e) % 2 ^ 32 := by
      rw [insertMerging_eq]
      cases g.list.find? (g.object · = g.stop z e) <;>
        cases g.list.find? (g.stop z · = g.object e) <;> rfl
    rw [hgrown, h.total, ← hsum, Nat.mod_eq_of_lt hsmall]

/-! ### Taking from a range -/

/-- The subtraction of sizes does not wrap. -/
theorem minus_eq {n s : Nat} (hle : s ≤ n) (hlt : n < 2 ^ 32) : Grouping.minus n s = n - s := by
  unfold Grouping.minus
  omega

/-- The end of `e` is cut off. -/
theorem Inv.cut (h : g.Inv z) (he : e ∈ g.list) {g' : FreeRanges α} (hle : s ≤ g.size e)
    (hobject : g'.object = g.object) (hsize : g'.size = Function.update g.size e (g.size e - s))
    (hlist : g'.list = if g.size e - s = 0 then g.list.erase e else g.list) :
    (g.spans z).Cut (g.object e) (z.object * (g.size e - s)) (z.object * s) (g'.spans z) := by
  have hsplit : z.object * (g.size e - s) + z.object * s = z.object * g.size e := by
    rw [← Nat.mul_add, Nat.sub_add_cancel hle]
  refine ⟨(g.list.erase e).map (g.span z), ?_, ?_⟩
  · rw [hsplit]
    exact spans_erase z he
  · by_cases hzero : g.size e - s = 0
    · rw [hzero, Nat.mul_zero, if_pos rfl]
      rw [if_pos hzero] at hlist
      have hsame : g'.spans z = (g.list.erase e).map (g.span z) := by
        unfold spans
        rw [hlist]
        refine List.map_congr_left fun x hx => ?_
        have hne : x ≠ e := fun heq => h.list_nodup.not_mem_erase (heq ▸ hx)
        unfold span
        rw [hobject, hsize, Function.update_of_ne hne]
      rw [hsame]
    · rw [if_neg (Nat.mul_ne_zero z.object_pos.ne' hzero)]
      rw [if_neg hzero] at hlist
      exact spans_setSize h.list_nodup he hlist hobject hsize

omit [DecidableEq α] in
/-- The free cells fit into 32 bits. -/
theorem Inv.groupedSize_lt (h : g.Inv z) : g.groupedSize < 2 ^ 32 := by
  have hlt := h.nodup.length_lt h.inside (by decide)
  rw [length_cells_spans, ← h.total] at hlt
  exact (Nat.le_mul_of_pos_left _ z.object_pos).trans_lt hlt

/-- `search_decrementing` keeps the invariant if its test does not wrap. -/
theorem Inv.searchDecrementing (h : g.Inv z)
    (hfits : ∀ e ∈ g.list, Grouping.fits z s (g.size e) → s ≤ g.size e) :
    (g.searchDecrementing z s).2.Inv z := by
  unfold FreeRanges.searchDecrementing
  cases hfind : g.list.find? fun e => Grouping.fits z s (g.size e) with
  | none => exact h
  | some e =>
    have he : e ∈ g.list := List.mem_of_find?_eq_some hfind
    have hle : s ≤ g.size e := hfits e he
      (List.find?_some (p := fun e => Grouping.fits z s (g.size e)) hfind)
    have hlt : g.size e < 2 ^ 32 := by
      have hbounds := h.bounds he
      have hmul := Nat.le_mul_of_pos_left (g.size e) z.object_pos
      omega
    have hrest : Grouping.minus (g.size e) s = g.size e - s := minus_eq hle hlt
    let g' : FreeRanges α :=
      { toGrouping := g.shrink e s
        list := if (g.shrink e s).size e = 0 then g.list.erase e else g.list }
    show g'.Inv z
    have hsize : g'.size = Function.update g.size e (g.size e - s) := by
      show Function.update g.size e (Grouping.minus (g.size e) s) = _
      rw [hrest]
    have hself : g'.size e = g.size e - s := by
      rw [hsize, Function.update_self]
    have hlist : g'.list = if g.size e - s = 0 then g.list.erase e else g.list := by
      rw [← hself]
    have hobject : g'.object = g.object := rfl
    have hcut := h.cut he hle hobject hsize hlist
    have hcells := hcut.cells
    have hnd := (List.nodup_append.mp (hcells.nodup_iff.mp h.nodup)).2.1
    have hlen := hcells.length_eq
    rw [List.length_append, length_cells_spans, length_cells_spans, Span.length_cells] at hlen
    have hsum : (g.list.map g.size).sum = s + (g'.list.map g'.size).sum := by
      refine Nat.eq_of_mul_eq_mul_left z.object_pos ?_
      rw [hlen, Nat.mul_add]
    constructor
    · rw [hlist]
      split
      · exact h.list_nodup.erase e
      · exact h.list_nodup
    · intro x hx
      have hpos := hcut.le_size (m := 1) (Nat.eq_zero_or_pos _) h.span_pos _
        (mem_spans.mpr ⟨x, hx, rfl⟩)
      exact Nat.pos_of_mul_pos_left hpos
    · exact hnd
    · intro x hx
      exact h.inside x (hcells.mem_iff.mpr (List.mem_append_right _ hx))
    · -- `search_decrementing(0)` cuts nothing off.
      by_cases hs : s = 0
      · rw [hs, Nat.mul_zero] at hcut
        have hne : z.object * (g.size e - 0) ≠ 0 :=
          (Nat.mul_pos z.object_pos (h.pos e he)).ne'
        exact h.unmerged.subset (hcut.perm hne).subset
      · exact hcut.unmerged h.unmerged h.nodup h.span_pos
          (Nat.mul_pos z.object_pos (Nat.pos_of_ne_zero hs))
    · show Grouping.minus g.groupedSize s = _
      have htotal : s ≤ g.groupedSize := by
        rw [h.total, hsum]
        exact Nat.le_add_right _ _
      rw [minus_eq htotal h.groupedSize_lt, h.total, hsum, Nat.add_sub_cancel_left]

end FreeRanges

/-! ## Runs -/

namespace GroupingRun

variable {r : GroupingRun α} {a : GroupingAction α}

/-- The invariant holds at the beginning. -/
theorem inv_init (h : (groupingSystem α z).Init r) : r.ranges.Inv z := by
  obtain ⟨hlist, htotal, -⟩ := h
  have hspans : r.ranges.spans z = [] := by
    unfold FreeRanges.spans
    rw [hlist]
    rfl
  constructor
  · rw [hlist]
    exact .nil
  · rw [hlist]
    exact List.forall_mem_nil _
  · rw [hspans]
    exact .nil
  · rw [hspans]
    exact List.forall_mem_nil _
  · rw [hspans]
    exact List.forall_mem_nil _
  · rw [htotal, hlist]
    rfl

/-- No range of fewer than `s` objects passes the test of `search_size(s)`. -/
def TakesEnough (z : GroupingSizes) (r : GroupingRun α) : GroupingAction α → Prop
  | .insert .. => True
  | .take s => ∀ e ∈ r.ranges.list, Grouping.fits z s (r.ranges.size e) → s ≤ r.ranges.size e

instance (z : GroupingSizes) (r : GroupingRun α) (a : GroupingAction α) :
    Decidable (r.CanAct z a) :=
  match a with
  | .insert .. => inferInstanceAs (Decidable (_ ∧ _ ∧ _ ∧ _ ∧ ∀ t ∈ r.ranges.spans z, _ ∨ _))
  | .take _ => inferInstanceAs (Decidable (_ < _))

instance (z : GroupingSizes) (r : GroupingRun α) (a : GroupingAction α) :
    Decidable ((groupingSystem α z).Enabled r a) :=
  inferInstanceAs (Decidable (r.CanAct z a))

omit [DecidableEq α] in
/-- Unless the sum that is compared with wraps, what passes is large enough. -/
theorem takesEnough_of_lt (hs : z.element ≤ z.object ∨ z.element / z.object + s < 2 ^ 32) :
    r.TakesEnough z (.take s) := by
  intro e _ hfits
  unfold Grouping.fits at hfits
  by_cases hlt : z.object < z.element
  · have hsum := hs.resolve_left (Nat.not_le.mpr hlt)
    rw [if_pos hlt, decide_eq_true_eq, Nat.mod_eq_of_lt hsum] at hfits
    have hle : s ≤ z.element / z.object + s := Nat.le_add_left _ _
    omega
  · rw [if_neg hlt, decide_eq_true_eq] at hfits
    omega

/-- Every step that takes enough keeps the invariant. -/
theorem step_inv (h : r.ranges.Inv z) (ha : r.CanAct z a) (htakes : r.TakesEnough z a) :
    (r.step z a).ranges.Inv z := by
  cases a with
  | insert e obj n =>
    obtain ⟨he, hn, hobj, hstop, hapart⟩ := ha
    let g := r.ranges.construct e obj n
    have hobject : g.object e = obj := Function.update_self ..
    have hsize : g.size e = n := Function.update_self ..
    -- the new element stands for the range that was given back
    have hspan : g.span z e = ⟨obj, z.object * n⟩ := by
      unfold FreeRanges.span
      rw [hobject, hsize]
    have hspans : g.spans z = r.ranges.spans z := FreeRanges.spans_construct he
    show (g.insertMerging z e).2.Inv z
    refine (h.construct he).insertMerging he ?_ ?_ ?_ ?_
    · show 0 < g.object e
      rw [hobject]
      exact hobj
    · show 0 < g.size e
      rw [hsize]
      exact hn
    · show g.object e + z.object * g.size e ≤ 2 ^ 32
      rw [hobject, hsize]
      exact hstop
    · show ∀ t ∈ g.spans z, t.Apart (g.span z e)
      rw [hspan, hspans]
      exact hapart
  | take s => exact h.searchDecrementing htakes

end GroupingRun

/-- Both lists are the same sequence of ranges and report the same in every run. The ranges
    are maximal and counted as long as no search takes more than the range has. -/
theorem grouping_lists_agree {r : GroupingRun α} {as : List (GroupingAction α)}
    (hinit : (groupingSystem α z).Init r) (hvalid : (groupingSystem α z).Valid r as) :
    (groupingSystem α z).Always GroupingRun.Agree r as ∧
      ((groupingSystem α z).Meets (GroupingRun.TakesEnough z) r as →
        (groupingSystem α z).Always (fun r => r.ranges.WellFormed z) r as) := by
  constructor
  · refine TransitionSystem.Meets.always (fun r a h ha _ => h.step ha)
      (GroupingRun.agree_init hinit) hvalid (TransitionSystem.meets_true r as)
  · intro hmeets
    have hinv : (groupingSystem α z).Always (fun r => r.ranges.Inv z) r as :=
      hmeets.always (fun r a h ha htakes => GroupingRun.step_inv h ha htakes)
        (GroupingRun.inv_init hinit) hvalid
    exact hinv.imp fun r h => h.wellFormed

/-- Two empty lists. -/
def emptyGroupingRun : GroupingRun Nat where
  simple := some ⟨⟨fun _ => 0, fun _ => 0, 0⟩, ⟨fun _ => none, {}⟩⟩
  linked := some ⟨⟨fun _ => 0, fun _ => 0, 0⟩, ⟨⟨fun _ => none, fun _ => none⟩, {}⟩⟩
  ranges := ⟨⟨fun _ => 0, fun _ => 0, 0⟩, []⟩

/-- A range between two others is merged with both, and some of it is taken. -/
theorem grouping_lists_agree_example :
    let z : GroupingSizes := ⟨4, 16, by decide⟩
    let as : List (GroupingAction Nat) :=
      [.insert 0 0x1000 8, .insert 1 0x1040 8, .insert 2 0x1020 8, .take 4]
    (groupingSystem Nat z).Always GroupingRun.Agree emptyGroupingRun as ∧
      (groupingSystem Nat z).Always (fun r => r.ranges.WellFormed z) emptyGroupingRun as := by
  intro z as
  have h := @grouping_lists_agree Nat _ z emptyGroupingRun as
    ⟨rfl, rfl, rfl, rfl, ⟨_, rfl⟩, ⟨_, rfl⟩⟩ (by decide +kernel)
  exact ⟨h.1, h.2 ⟨trivial, trivial, trivial, GroupingRun.takesEnough_of_lt (by decide), trivial⟩⟩

/-- With `sizeof(Element) / sizeof(Object_Type) + s` wrapped, a range of 20 objects grows to
    30 and is adjacent to the next one. -/
theorem not_grouping_lists_agree :
    ¬∀ (z : GroupingSizes) (r : GroupingRun Nat) (as : List (GroupingAction Nat)),
      (groupingSystem Nat z).Init r → (groupingSystem Nat z).Valid r as →
        (groupingSystem Nat z).Always (fun r => r.Agree ∧ r.ranges.WellFormed z) r as := by
  intro h
  let z : GroupingSizes := ⟨1, 16, by decide⟩
  let as : List (GroupingAction Nat) :=
    [.insert 0 0x1000 20, .insert 1 0x101E 20, .take (2 ^ 32 - 10)]
  have hlast := (h z emptyGroupingRun as ⟨rfl, rfl, rfl, rfl, ⟨_, rfl⟩, ⟨_, rfl⟩⟩
    (by decide +kernel)).last.2.unmerged
  exact hlast ⟨0x1000, 30⟩ (by decide +kernel) ⟨0x101E, 20⟩ (by decide +kernel) rfl

end Epos
