import Epos.Kernel.ConcurrentObserver

/-!
# The accesses of an insertion and of a removal

What the list of an observer is at each point of `insert_tail(e)` and of `remove_head()`, when
no other operation on this list is under way. Other lists may go through the same elements: they
are parts of one sequence, whose last element is the one that is inserted, so that a link that is
written for one list is right for all.
-/

namespace Epos

variable {δ : Type*} {next next' : δ → Option δ} {h : ListHeader δ} {queue l : List δ} {d : δ}
  {pend : Option δ}

/-- A list is empty if its size says so. -/
theorem SimpleList.empty_of_partOf (hl : l.PartOf next h) :
    (SimpleList.mk next h).empty = l.isEmpty := by
  unfold SimpleList.empty
  rw [hl.size]
  cases l with
  | nil => rfl
  | cons x xs =>
    rw [List.length_cons, List.isEmpty_cons, beq_eq_false_iff_ne]
    omega

/-! ## Insertions -/

namespace InsertPoint

variable {p : InsertPoint δ}

/-- The header when the new element is linked and not counted yet. -/
structure Linked (next : δ → Option δ) (h : ListHeader δ) (queue : List δ) (pend : Option δ) :
    Prop where
  size : h.size = queue.length
  head : h.head = (queue ++ pend.toList).head?
  linked : (queue ++ pend.toList).IsChain fun x y => next x = some y

/-- What a list that held `queue` is while `pend` is inserted. -/
def Fits (next : δ → Option δ) (h : ListHeader δ) (queue : List δ) (pend : Option δ) :
    InsertPoint δ → Prop
  | .empty => queue.PartOf next h
  | .firstNext => queue = [] ∧ queue.PartOf next h
  | .firstHead => queue = [] ∧ queue.PartOf next h
  | .tail => queue ≠ [] ∧ queue.PartOf next h
  | .tailNext t => queue ≠ [] ∧ t = queue.getLast? ∧ queue.PartOf next h
  | .next => queue ≠ [] ∧ queue.PartOf next h ∧
      (queue ++ pend.toList).IsChain fun x y => next x = some y
  | .setTail => Linked next h queue pend
  | .size => Linked next h queue pend ∧ h.tail = pend
  | .setSize n => Linked next h queue pend ∧ h.tail = pend ∧ n = queue.length
  | .v => (queue ++ pend.toList).PartOf next h

/-- The element, from the first access on. -/
def begun (pend : Option δ) : InsertPoint δ → List δ
  | .empty => []
  | _ => pend.toList

/-- The element, when the call has returned. -/
def landed (pend : Option δ) : InsertPoint δ → List δ
  | .v => pend.toList
  | _ => []

/-- The call has not begun, or has returned. -/
def Still (p : InsertPoint δ) : Prop := p = .empty ∨ p = .v

/-- An element whose insertion has begun is in the list when it has returned. -/
theorem Still.begun_eq (hp : p.Still) (pend : Option δ) : p.begun pend = p.landed pend := by
  cases hp with
  | inl heq =>
    subst heq
    rfl
  | inr heq =>
    subst heq
    rfl

/-- Between insertions a list is what it has been given. -/
theorem Still.fits_iff (hp : p.Still) :
    p.Fits next h queue pend ↔ (queue ++ p.landed pend).PartOf next h := by
  cases hp with
  | inl heq =>
    subst heq
    show queue.PartOf next h ↔ (queue ++ []).PartOf next h
    rw [List.append_nil]
  | inr heq =>
    subst heq
    exact Iff.rfl

/-- Only the links in the list, and to the new element, matter. -/
theorem Fits.relink (hfits : p.Fits next h queue pend)
    (hlinked : ∀ l : List δ, l <:+: queue ++ p.begun pend →
      (l.IsChain fun x y => next x = some y) → l.IsChain fun x y => next' x = some y) :
    p.Fits next' h queue pend := by
  have hqueue : ∀ {l : List δ}, queue <:+: queue ++ l := (List.prefix_append ..).isInfix
  have hpart (hl : queue.PartOf next h) : queue.PartOf next' h :=
    ⟨hl.size, hl.head, hl.tail, hlinked queue hqueue hl.linked⟩
  cases p with
  | empty => exact hpart hfits
  | firstNext => exact ⟨hfits.1, hpart hfits.2⟩
  | firstHead => exact ⟨hfits.1, hpart hfits.2⟩
  | tail => exact ⟨hfits.1, hpart hfits.2⟩
  | tailNext t => exact ⟨hfits.1, hfits.2.1, hpart hfits.2.2⟩
  | next => exact ⟨hfits.1, hpart hfits.2.1, hlinked _ (List.infix_refl _) hfits.2.2⟩
  | setTail => exact ⟨hfits.size, hfits.head, hlinked _ (List.infix_refl _) hfits.linked⟩
  | size =>
    obtain ⟨hl, htail⟩ := hfits
    exact ⟨⟨hl.size, hl.head, hlinked _ (List.infix_refl _) hl.linked⟩, htail⟩
  | setSize n =>
    obtain ⟨hl, htail⟩ := hfits
    exact ⟨⟨hl.size, hl.head, hlinked _ (List.infix_refl _) hl.linked⟩, htail⟩
  | v => exact ⟨hfits.size, hfits.head, hfits.tail, hlinked _ (List.infix_refl _) hfits.linked⟩

variable [DecidableEq δ] {S : List δ}

/-- An access to a list and an element that are the end of a sequence leaves the parts of the
    sequence linked, and what is apart from it. -/
theorem Fits.step (hS : S.Nodup) (hsuffix : queue ++ [d] <:+ S)
    (hfits : p.Fits next h queue (some d)) (hp : p ≠ .v) :
    ∃ p' q, p.step d ⟨next, h⟩ = some (p', q) ∧
      p'.Fits q.next q.header queue (some d) ∧
      ∀ l : List δ, (l <:+: S ∨ ∀ x ∈ l, x ∉ S) →
        (l.IsChain fun x y => next x = some y) → l.IsChain fun x y => q.next x = some y := by
  have hlast : S.getLast? = some d := by
    obtain ⟨front, rfl⟩ := hsuffix
    rw [← List.append_assoc, List.getLast?_concat]
  have hqueue : queue <:+: S := (List.prefix_append queue [d]).isInfix.trans hsuffix.isInfix
  cases p with
  | empty =>
    have hempty : (SimpleList.mk next h).empty = queue.isEmpty := SimpleList.empty_of_partOf hfits
    by_cases hnil : queue = []
    · refine ⟨.firstNext, ⟨next, h⟩, ?_, ⟨hnil, hfits⟩, fun l _ hl => hl⟩
      unfold InsertPoint.step
      rw [hempty, hnil]
      rfl
    · refine ⟨.tail, ⟨next, h⟩, ?_, ⟨hnil, hfits⟩, fun l _ hl => hl⟩
      unfold InsertPoint.step
      rw [hempty, if_neg (by simpa using hnil)]
  | firstNext =>
    have hlinked (l : List δ) (hl : l <:+: S ∨ ∀ x ∈ l, x ∉ S)
        (hch : l.IsChain fun x y => next x = some y) :=
      hch.update_of_getLast? (n := none) hS hlast hl
    refine ⟨.firstHead, _, rfl, ⟨hfits.1, ?_⟩, hlinked⟩
    exact ⟨hfits.2.size, hfits.2.head, hfits.2.tail, hlinked queue (.inl hqueue) hfits.2.linked⟩
  | firstHead =>
    obtain ⟨rfl, hl⟩ := hfits
    exact ⟨.setTail, _, rfl, ⟨hl.size, rfl, .singleton d⟩,
      fun l _ hl => hl⟩
  | tail =>
    exact ⟨.tailNext h.tail, _, rfl, ⟨hfits.1, hfits.2.tail, hfits.2⟩,
      fun l _ hl => hl⟩
  | tailNext t =>
    obtain ⟨hne, rfl, hl⟩ := hfits
    obtain ⟨x, hx⟩ := Option.isSome_iff_exists.mp (List.getLast?_isSome.mpr hne)
    obtain ⟨init, rfl⟩ := List.getLast?_eq_some_iff.mp hx
    -- The new element is behind the last one in the sequence, too.
    have hbehind : [x, d] <:+: S := by
      have hend : [x, d] <:+: init ++ [x] ++ [d] := ⟨init, [], by simp⟩
      exact hend.trans hsuffix.isInfix
    have hlinked (l : List δ) (hl : l <:+: S ∨ ∀ x ∈ l, x ∉ S)
        (hch : l.IsChain fun x y => next x = some y) := hch.update_of_behind hS hbehind hl
    rw [hx]
    refine ⟨.next, _, rfl, ⟨hne, ?_, ?_⟩, hlinked⟩
    · exact ⟨hl.size, hl.head, hl.tail, hlinked _ (.inl hqueue) hl.linked⟩
    · refine (hlinked _ (.inl hqueue) hl.linked).append (.singleton d) fun a ha b hb => ?_
      obtain rfl : x = a := Option.some.inj (hx.symm.trans ha)
      obtain rfl : d = b := Option.some.inj hb
      exact Function.update_self ..
  | next =>
    obtain ⟨hne, hl, hch⟩ := hfits
    have hlinked (l : List δ) (hl : l <:+: S ∨ ∀ x ∈ l, x ∉ S)
        (hch : l.IsChain fun x y => next x = some y) :=
      hch.update_of_getLast? (n := none) hS hlast hl
    refine ⟨.setTail, _, rfl, ⟨hl.size, ?_, ?_⟩, hlinked⟩
    · rw [List.head?_append_of_ne_nil _ hne]
      exact hl.head
    · exact hlinked _ (.inl hsuffix.isInfix) hch
  | setTail =>
    exact ⟨.size, _, rfl, ⟨⟨hfits.size, hfits.head, hfits.linked⟩, rfl⟩,
      fun l _ hl => hl⟩
  | size =>
    obtain ⟨hl, htail⟩ := hfits
    exact ⟨.setSize h.size, _, rfl, ⟨hl, htail, hl.size⟩,
      fun l _ hl => hl⟩
  | setSize n =>
    obtain ⟨hl, htail, rfl⟩ := hfits
    refine ⟨.v, _, rfl, ⟨?_, hl.head, ?_, hl.linked⟩, fun l _ hl => hl⟩
    · show (queue.length : Int) + 1 = (queue ++ [d]).length
      rw [List.length_append, List.length_singleton]
      rfl
    · exact htail.trans List.getLast?_concat.symm
  | v => exact absurd rfl hp

/-- Accesses of one call with no others in between. -/
def alone (d : δ) : Nat → InsertPoint δ × SimpleList δ → Option (InsertPoint δ × SimpleList δ)
  | 0, x => some x
  | n + 1, (p, q) => (p.step d q).bind (alone d n)

/-- With no others in between the accesses are `SimpleList.insertTail`. -/
theorem alone_eq_insertTail (q : SimpleList δ) :
    alone d 7 (.empty, q) = (q.insertTail d).map fun q' => (.v, q') := by
  unfold SimpleList.insertTail
  by_cases hempty : q.empty
  · simp [alone, InsertPoint.step, hempty, SimpleList.insertFirst]
  · cases htail : q.header.tail <;>
      simp [alone, InsertPoint.step, hempty, htail]

end InsertPoint

/-! ## Removals -/

namespace RemovePoint

variable {r : RemovePoint δ}

/-- The header when the first element is out and counted still. -/
structure Unlinked (next : δ → Option δ) (h : ListHeader δ) (l : List δ) : Prop where
  size : h.size = l.length + 1
  head : h.head = l.head?
  tail : h.tail = l.getLast?
  linked : l.IsChain fun x y => next x = some y

/-- What a list is while `d` is removed in front of `l`. -/
def Fits (next : δ → Option δ) (h : ListHeader δ) (d : δ) (l : List δ) : RemovePoint δ → Prop
  | .last => (d :: l).PartOf next h
  | .lastHead => l = [] ∧ (d :: l).PartOf next h
  | .clearHead e => l = [] ∧ e = some d ∧ (d :: l).PartOf next h
  | .clearTail e => l = [] ∧ e = some d ∧ h.size = 1 ∧ h.head = none
  | .head => l ≠ [] ∧ (d :: l).PartOf next h
  | .next e => l ≠ [] ∧ e = some d ∧ (d :: l).PartOf next h
  | .link e x => l ≠ [] ∧ e = some d ∧ x = some d ∧ (d :: l).PartOf next h
  | .setHead e x => l ≠ [] ∧ e = some d ∧ x = l.head? ∧ (d :: l).PartOf next h
  | .size e => e = some d ∧ Unlinked next h l
  | .setSize e n => e = some d ∧ n = l.length + 1 ∧ Unlinked next h l

/-- Only the links in the list matter. -/
theorem Fits.relink (hfits : r.Fits next h d l)
    (hlinked : ∀ l' : List δ, l' <:+: d :: l →
      (l'.IsChain fun x y => next x = some y) → l'.IsChain fun x y => next' x = some y) :
    r.Fits next' h d l := by
  have hpart (hl : (d :: l).PartOf next h) : (d :: l).PartOf next' h :=
    ⟨hl.size, hl.head, hl.tail, hlinked _ (List.infix_refl _) hl.linked⟩
  have hrest (hl : Unlinked next h l) : Unlinked next' h l :=
    ⟨hl.size, hl.head, hl.tail, hlinked l (List.suffix_cons d l).isInfix hl.linked⟩
  cases r with
  | last => exact hpart hfits
  | lastHead => exact ⟨hfits.1, hpart hfits.2⟩
  | clearHead e => exact ⟨hfits.1, hfits.2.1, hpart hfits.2.2⟩
  | clearTail e => exact hfits
  | head => exact ⟨hfits.1, hpart hfits.2⟩
  | next e => exact ⟨hfits.1, hfits.2.1, hpart hfits.2.2⟩
  | link e x => exact ⟨hfits.1, hfits.2.1, hfits.2.2.1, hpart hfits.2.2.2⟩
  | setHead e x => exact ⟨hfits.1, hfits.2.1, hfits.2.2.1, hpart hfits.2.2.2⟩
  | size e => exact ⟨hfits.1, hrest hfits.2⟩
  | setSize e n => exact ⟨hfits.1, hfits.2.1, hrest hfits.2.2⟩

/-- If something stays in the list, it is not empty in the meantime and its last element stays. -/
theorem Fits.tail (hfits : r.Fits next h d l) (hne : l ≠ []) :
    h.size ≠ 0 ∧ h.tail = l.getLast? := by
  have hpart (hl : (d :: l).PartOf next h) : h.size ≠ 0 ∧ h.tail = l.getLast? := by
    obtain ⟨x, xs, rfl⟩ := List.exists_cons_of_ne_nil hne
    refine ⟨?_, hl.tail.trans List.getLast?_cons_cons⟩
    rw [hl.size, List.length_cons]
    omega
  have hrest (hl : Unlinked next h l) : h.size ≠ 0 ∧ h.tail = l.getLast? := by
    refine ⟨?_, hl.tail⟩
    rw [hl.size]
    omega
  cases r with
  | last => exact hpart hfits
  | lastHead => exact absurd hfits.1 hne
  | clearHead e => exact absurd hfits.1 hne
  | clearTail e => exact absurd hfits.1 hne
  | head => exact hpart hfits.2
  | next e => exact hpart hfits.2.2
  | link e x => exact hpart hfits.2.2.2
  | setHead e x => exact hpart hfits.2.2.2
  | size e => exact hrest hfits.2
  | setSize e n => exact hrest hfits.2.2

/-- An access of a removal follows no null pointer, and the last one returns the element. -/
theorem Fits.step (hfits : r.Fits next h d l) :
    (∃ r' h', r.step next h = some (.inl r', h') ∧ r'.Fits next h' d l) ∨
      ∃ h', r.step next h = some (.inr (some d), h') ∧ l.PartOf next h' := by
  cases r with
  | last =>
    refine .inl ⟨_, _, rfl, ?_⟩
    have hsize : h.size = l.length + 1 := by
      rw [hfits.size, List.length_cons]
      rfl
    by_cases hnil : l = []
    · have hlast : (SimpleList.mk next h).last = true := by
        unfold SimpleList.last
        rw [hsize, hnil]
        rfl
      rw [if_pos hlast]
      exact ⟨hnil, hfits⟩
    · have hlast : (SimpleList.mk next h).last = false := by
        have hpos := List.length_pos_iff.mpr hnil
        unfold SimpleList.last
        rw [hsize, beq_eq_false_iff_ne]
        omega
      rw [hlast, if_neg Bool.false_ne_true]
      exact ⟨hnil, hfits⟩
  | lastHead => exact .inl ⟨_, _, rfl, hfits.1, hfits.2.head, hfits.2⟩
  | clearHead e =>
    obtain ⟨rfl, he, hl⟩ := hfits
    exact .inl ⟨_, _, rfl, rfl, he, hl.size, rfl⟩
  | clearTail e =>
    obtain ⟨rfl, he, hsize, hhead⟩ := hfits
    exact .inl ⟨_, _, rfl, he, hsize, hhead, rfl, .nil⟩
  | head => exact .inl ⟨_, _, rfl, hfits.1, hfits.2.head, hfits.2⟩
  | next e => exact .inl ⟨_, _, rfl, hfits.1, hfits.2.1, hfits.2.2.head, hfits.2.2⟩
  | link e x =>
    obtain ⟨hne, he, rfl, hl⟩ := hfits
    refine .inl ⟨_, _, rfl, hne, he, ?_, hl⟩
    -- The link of the first element is one inside of the list.
    obtain ⟨y, ys, rfl⟩ := List.exists_cons_of_ne_nil hne
    exact (List.isChain_cons_cons.mp hl.linked).1
  | setHead e x =>
    obtain ⟨hne, he, hx, hl⟩ := hfits
    refine .inl ⟨_, _, rfl, he, ?_, hx, ?_, hl.linked.tail⟩
    · show h.size = _
      rw [hl.size, List.length_cons]
      rfl
    · obtain ⟨y, ys, rfl⟩ := List.exists_cons_of_ne_nil hne
      exact hl.tail.trans List.getLast?_cons_cons
  | size e => exact .inl ⟨_, _, rfl, hfits.1, hfits.2.size, hfits.2⟩
  | setSize e n =>
    obtain ⟨rfl, rfl, hl⟩ := hfits
    refine .inr ⟨_, rfl, ?_, hl.head, hl.tail, hl.linked⟩
    exact Int.add_sub_cancel ..

/-- Accesses of one call with no others in between. -/
def alone (next : δ → Option δ) : Nat → (RemovePoint δ ⊕ Option δ) × ListHeader δ →
    Option ((RemovePoint δ ⊕ Option δ) × ListHeader δ)
  | n + 1, (.inl r, h) => (r.step next h).bind (alone next n)
  | _, x => some x

/-- With no others in between the accesses behind `empty()` are `SimpleList.removeHead`. -/
theorem alone_eq_removeHead (q : SimpleList δ) (hempty : q.empty = false) :
    alone q.next 7 (.inl .last, q.header) =
      q.removeHead.map fun (e, q') => (.inr e, q'.header) := by
  unfold SimpleList.removeHead
  rw [hempty, if_neg Bool.false_ne_true]
  by_cases hlast : q.last
  · simp [alone, RemovePoint.step, hlast, SimpleList.removeLast]
  · cases hhead : q.header.head <;>
      simp [alone, RemovePoint.step, hlast, hhead]

end RemovePoint

end Epos
