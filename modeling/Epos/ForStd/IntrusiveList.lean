import Epos.ForStd.SinglyLinked
import Mathlib.Logic.Function.Basic

/-!
# Intrusive doubly-linked lists

Elements carry their own `prev` and `next` fields, and a list is a header with a
size and pointers to its first and its last element. One set of links is shared by
all lists, and an element that has been taken out keeps what its fields held.
`Represents` relates a header to the list of its elements, `Holds` the headers of
a family of lists to disjoint lists. Nothing here mentions the kernel.
-/

/-- The link fields of all elements. -/
structure Links (α : Type*) where
  prev : α → Option α
  next : α → Option α

namespace Links

variable {α : Type*}

section Update

variable [DecidableEq α]

def setPrev (L : Links α) (x : α) (p : Option α) : Links α :=
  { L with prev := Function.update L.prev x p }

def setNext (L : Links α) (x : α) (n : Option α) : Links α :=
  { L with next := Function.update L.next x n }

@[simp] theorem setPrev_prev (L : Links α) (x y : α) (p : Option α) :
    (L.setPrev x p).prev y = if y = x then p else L.prev y :=
  Function.update_apply _ _ _ _

@[simp] theorem setPrev_next (L : Links α) (x : α) (p : Option α) :
    (L.setPrev x p).next = L.next := rfl

@[simp] theorem setNext_next (L : Links α) (x y : α) (n : Option α) :
    (L.setNext x n).next y = if y = x then n else L.next y :=
  Function.update_apply _ _ _ _

@[simp] theorem setNext_prev (L : Links α) (x : α) (n : Option α) :
    (L.setNext x n).prev = L.prev := rfl

end Update

/-- The links of every element outside `S` are the same. -/
def EqOff (L L' : Links α) (S : List α) : Prop :=
  ∀ x, x ∉ S → L'.prev x = L.prev x ∧ L'.next x = L.next x

/-- The elements of the list are linked to each other in this order, to `p` in
    front and to `n` behind. -/
def Linked (L : Links α) : Option α → List α → Option α → Prop
  | _, [], _ => True
  | p, x :: xs, n => L.prev x = p ∧ L.next x = xs.head?.or n ∧ L.Linked (some x) xs n

/-- The header is the one of a list of these elements. -/
structure Represents (L : Links α) (h : ListHeader α) (l : List α) : Prop where
  size : h.size = l.length
  head : h.head = l.head?
  tail : h.tail = l.getLast?
  linked : L.Linked none l none

/-- Each header is the one of its list, and no element is in two lists. -/
structure Holds {ι : Type*} (L : Links α) (H : ι → ListHeader α) (l : ι → List α) : Prop where
  represents : ∀ i, L.Represents (H i) (l i)
  disjoint : ∀ i j x, x ∈ l i → x ∈ l j → i = j

variable {L L' L'' : Links α} {h : ListHeader α} {p n : Option α} {l l' l₁ l₂ : List α} {x y : α}

/-! ## Frames -/

namespace EqOff

theorem refl (L : Links α) (S : List α) : L.EqOff L S := fun _ _ => ⟨rfl, rfl⟩

theorem trans (h : L.EqOff L' l) (h' : L'.EqOff L'' l) : L.EqOff L'' l := fun x hx =>
  ⟨(h' x hx).1.trans (h x hx).1, (h' x hx).2.trans (h x hx).2⟩

/-- A change inside of fewer elements. -/
theorem mono (h : L.EqOff L' l) (hsub : l ⊆ l') : L.EqOff L' l' := fun x hx =>
  h x fun hmem => hx (hsub hmem)

/-- A link of an element that may change. -/
theorem setPrev [DecidableEq α] (hx : x ∈ l) : L.EqOff (L.setPrev x p) l := fun y hy => by
  have hne : y ≠ x := fun heq => hy (heq ▸ hx)
  simp [hne]

/-- A link of an element that may change. -/
theorem setNext [DecidableEq α] (hx : x ∈ l) : L.EqOff (L.setNext x p) l := fun y hy => by
  have hne : y ≠ x := fun heq => hy (heq ▸ hx)
  simp [hne]

end EqOff

/-- The links of other elements do not matter. -/
theorem Linked.congr (h : L.Linked p l n)
    (hl : ∀ x ∈ l, L'.prev x = L.prev x ∧ L'.next x = L.next x) : L'.Linked p l n := by
  induction l generalizing p with
  | nil => trivial
  | cons x xs ih =>
    obtain ⟨hprev, hnext, hrest⟩ := h
    obtain ⟨hp, hn⟩ := hl x List.mem_cons_self
    exact ⟨hp.trans hprev, hn.trans hnext, ih hrest fun y hy => hl y (List.mem_cons_of_mem _ hy)⟩

/-- A list does not notice changes elsewhere. -/
theorem Represents.congr (hr : L.Represents h l) (hoff : L.EqOff L' l') (hd : ∀ x ∈ l, x ∉ l') :
    L'.Represents h l :=
  ⟨hr.size, hr.head, hr.tail, hr.linked.congr fun x hx => hoff x (hd x hx)⟩

/-! ## The shape of a linked list -/

/-- Linked in two parts. -/
theorem linked_append :
    L.Linked p (l₁ ++ l₂) n ↔
      L.Linked p l₁ (l₂.head?.or n) ∧ L.Linked (l₁.getLast?.or p) l₂ n := by
  induction l₁ generalizing p with
  | nil => simp [Linked]
  | cons x xs ih =>
    simp only [List.cons_append, Linked, ih, and_assoc]
    have hlast : (x :: xs).getLast?.or p = xs.getLast?.or (some x) := by
      simp [List.getLast?_cons, Option.or_some]
    rw [hlast]
    cases xs <;> simp

/-- Following `next` from an element of a list stays in the list. -/
theorem Linked.next_mem (h : L.Linked p l none) (hx : x ∈ l) (hy : L.next x = some y) : y ∈ l := by
  induction l generalizing p with
  | nil => cases hx
  | cons z zs ih =>
    obtain ⟨-, hnext, hrest⟩ := h
    cases List.mem_cons.mp hx with
    | inl heq =>
      subst heq
      rw [hy, Option.or_none] at hnext
      exact List.mem_cons_of_mem _ (List.mem_of_mem_head? hnext.symm)
    | inr hx => exact List.mem_cons_of_mem _ (ih hrest hx)

/-- Following `prev` from an element of a list stays in the list. -/
theorem Linked.prev_mem (h : L.Linked p l n) (hx : x ∈ l) (hy : L.prev x = some y) :
    y ∈ l ∨ p = some y := by
  induction l generalizing p with
  | nil => cases hx
  | cons z zs ih =>
    obtain ⟨hprev, -, hrest⟩ := h
    cases List.mem_cons.mp hx with
    | inl heq =>
      subst heq
      exact .inr (hprev.symm.trans hy)
    | inr hx =>
      cases ih hrest hx with
      | inl hmem => exact .inl (List.mem_cons_of_mem _ hmem)
      | inr heq =>
        cases heq
        exact .inl List.mem_cons_self

/-- The two links of neighbours agree. -/
theorem Linked.prev_of_next (h : L.Linked p l none) (hx : x ∈ l) (hy : L.next x = some y) :
    L.prev y = some x := by
  induction l generalizing p with
  | nil => cases hx
  | cons z zs ih =>
    obtain ⟨-, hnext, hrest⟩ := h
    cases List.mem_cons.mp hx with
    | inl heq =>
      subst heq
      rw [hy, Option.or_none] at hnext
      cases zs with
      | nil => cases hnext
      | cons w ws =>
        obtain rfl := Option.some.inj hnext
        exact hrest.1
    | inr hx => exact ih hrest hx

/-- Only the first element has nothing in front. -/
theorem Linked.head?_of_prev (h : L.Linked p l n) (hx : x ∈ l) (hprev : L.prev x = none) :
    l.head? = some x := by
  cases l with
  | nil => cases hx
  | cons z zs =>
    cases List.mem_cons.mp hx with
    | inl heq => rw [heq, List.head?_cons]
    | inr hx =>
      obtain ⟨as, bs, rfl⟩ := List.append_of_mem hx
      have hlast := (linked_append.mp h.2.2).2.1
      rw [hprev] at hlast
      cases has : as.getLast? <;> simp [has] at hlast

/-- The elements are a chain of `next` fields. -/
theorem Linked.chained (h : L.Linked p l n) : l.Chained L.next n := by
  induction l generalizing p with
  | nil => trivial
  | cons x xs ih => exact ⟨h.2.1, ih h.2.2⟩

/-- Backwards the elements are a chain of `prev` fields. -/
theorem Linked.chained_reverse (h : L.Linked p l n) : l.reverse.Chained L.prev p := by
  induction l generalizing p with
  | nil => trivial
  | cons x xs ih =>
    rw [List.reverse_cons, List.chained_append]
    exact ⟨ih h.2.2, h.1, trivial⟩

/-- A list that ends does not run into itself. -/
theorem Linked.nodup (h : L.Linked p l none) : l.Nodup := h.chained.nodup

/-- A list is headed by its first element. -/
theorem Represents.headedBy (h' : L.Represents h l) : l.HeadedBy L.next h :=
  ⟨h'.size, h'.head, h'.tail, h'.linked.chained⟩

/-- No element comes twice. -/
theorem Represents.nodup (h' : L.Represents h l) : l.Nodup := h'.linked.nodup

/-! ## Linking an element in and out -/

/-- What is behind the list changes with the `next` of its last element. -/
theorem Linked.relink_last {n' : Option α} (h : L.Linked p l n) (hnd : l.Nodup)
    (hprev : ∀ x ∈ l, L'.prev x = L.prev x)
    (hnext : ∀ x ∈ l, l.getLast? ≠ some x → L'.next x = L.next x)
    (hlast : ∀ x, l.getLast? = some x → L'.next x = n') : L'.Linked p l n' := by
  induction l generalizing p with
  | nil => trivial
  | cons x xs ih =>
    obtain ⟨hp, hn, hrest⟩ := h
    obtain ⟨hx, hxs⟩ := List.nodup_cons.mp hnd
    cases xs with
    | nil => exact ⟨(hprev x List.mem_cons_self).trans hp, hlast x rfl, trivial⟩
    | cons y ys =>
      rw [List.getLast?_cons_cons] at hnext hlast
      have hne : (y :: ys).getLast? ≠ some x := fun heq => hx (List.mem_of_mem_getLast? heq)
      refine ⟨(hprev x List.mem_cons_self).trans hp, ?_, ih hrest hxs ?_ ?_ hlast⟩
      · exact (hnext x List.mem_cons_self hne).trans hn
      · exact fun z hz => hprev z (List.mem_cons_of_mem _ hz)
      · exact fun z hz => hnext z (List.mem_cons_of_mem _ hz)

/-- What is in front of the list changes with the `prev` of its first element. -/
theorem Linked.relink_head {p' : Option α} (h : L.Linked p l n) (hnd : l.Nodup)
    (hnext : ∀ x ∈ l, L'.next x = L.next x)
    (hprev : ∀ x ∈ l, l.head? ≠ some x → L'.prev x = L.prev x)
    (hhead : ∀ x, l.head? = some x → L'.prev x = p') : L'.Linked p' l n := by
  cases l with
  | nil => trivial
  | cons x xs =>
    obtain ⟨-, hn, hrest⟩ := h
    obtain ⟨hx, -⟩ := List.nodup_cons.mp hnd
    refine ⟨hhead x rfl, (hnext x List.mem_cons_self).trans hn, hrest.congr fun y hy => ?_⟩
    have hne : (x :: xs).head? ≠ some y := by
      intro heq
      cases heq
      exact hx hy
    exact ⟨hprev y (List.mem_cons_of_mem _ hy) hne, hnext y (List.mem_cons_of_mem _ hy)⟩

section Gap

variable [DecidableEq α] {e : α}

/-- `e` has been linked in between `l₁` and `l₂`. -/
structure LinksIn (L L' : Links α) (l₁ : List α) (e : α) (l₂ : List α) : Prop where
  prev_self : L'.prev e = l₁.getLast?
  next_self : L'.next e = l₂.head?
  prev : ∀ x, x ≠ e → L'.prev x = if l₂.head? = some x then some e else L.prev x
  next : ∀ x, x ≠ e → L'.next x = if l₁.getLast? = some x then some e else L.next x

/-- What is between `l₁` and `l₂` has been bypassed. -/
structure LinksOut (L L' : Links α) (l₁ l₂ : List α) : Prop where
  prev : ∀ x, L'.prev x = if l₂.head? = some x then l₁.getLast? else L.prev x
  next : ∀ x, L'.next x = if l₁.getLast? = some x then l₂.head? else L.next x

/-- Linking in changes the list and the element only. -/
theorem LinksIn.eqOff (h : L.LinksIn L' l₁ e l₂) : L.EqOff L' (l₁ ++ e :: l₂) := by
  intro x hx
  have hne : x ≠ e := fun heq => hx (by simp [heq])
  have hhead : l₂.head? ≠ some x := fun heq => hx (by simp [List.mem_of_mem_head? heq])
  have hlast : l₁.getLast? ≠ some x := fun heq => hx (by simp [List.mem_of_mem_getLast? heq])
  rw [h.prev x hne, h.next x hne, if_neg hhead, if_neg hlast]
  exact ⟨rfl, rfl⟩

/-- Linking out changes the neighbours only. -/
theorem LinksOut.eqOff (h : L.LinksOut L' l₁ l₂) : L.EqOff L' (l₁ ++ l₂) := by
  intro x hx
  have hhead : l₂.head? ≠ some x := fun heq => hx (by simp [List.mem_of_mem_head? heq])
  have hlast : l₁.getLast? ≠ some x := fun heq => hx (by simp [List.mem_of_mem_getLast? heq])
  rw [h.prev x, h.next x, if_neg hhead, if_neg hlast]
  exact ⟨rfl, rfl⟩

/-- The first elements keep their `prev`s and the last ones their `next`s, whatever is
    put into the gap between them. -/
theorem Linked.gap (h : L.Linked none (l₁ ++ l) none) (hl : l₂ <:+ l) {g : Option α × Option α}
    (hprev : ∀ x ∈ l₁ ++ l₂, L'.prev x = if l₂.head? = some x then g.1 else L.prev x)
    (hnext : ∀ x ∈ l₁ ++ l₂, L'.next x = if l₁.getLast? = some x then g.2 else L.next x) :
    L'.Linked none l₁ g.2 ∧ L'.Linked g.1 l₂ none := by
  have hnd := h.nodup
  obtain ⟨m, rfl⟩ := hl
  obtain ⟨h₁, h₂⟩ := linked_append.mp h
  have h₂' := (linked_append.mp h₂).2
  obtain ⟨hnd₁, hnd₂, hdisj⟩ := List.nodup_append.mp hnd
  have hdisj' (x : α) (hx₁ : x ∈ l₁) (hx₂ : x ∈ l₂) : False :=
    hdisj x hx₁ x (List.mem_append_right _ hx₂) rfl
  constructor
  · -- the front part: only the next link of its last element changes
    apply h₁.relink_last hnd₁
    · intro x hx
      have hne : l₂.head? ≠ some x := fun heq => hdisj' x hx (List.mem_of_mem_head? heq)
      rw [hprev x (List.mem_append_left _ hx), if_neg hne]
    · intro x hx hne
      rw [hnext x (List.mem_append_left _ hx), if_neg hne]
    · intro x hx
      rw [hnext x (List.mem_append_left _ (List.mem_of_mem_getLast? hx)), if_pos hx]
  · -- the back part: only the previous link of its first element changes
    apply h₂'.relink_head (List.nodup_append.mp hnd₂).2.1
    · intro x hx
      have hne : l₁.getLast? ≠ some x := fun heq => hdisj' x (List.mem_of_mem_getLast? heq) hx
      rw [hnext x (List.mem_append_right _ hx), if_neg hne]
    · intro x hx hne
      rw [hprev x (List.mem_append_right _ hx), if_neg hne]
    · intro x hx
      rw [hprev x (List.mem_append_right _ (List.mem_of_mem_head? hx)), if_pos hx]

/-- What was linked in is linked. -/
theorem Linked.insert (h : L.Linked none (l₁ ++ l₂) none) (he : e ∉ l₁ ++ l₂)
    (hin : L.LinksIn L' l₁ e l₂) : L'.Linked none (l₁ ++ e :: l₂) none := by
  have hne (x : α) (hx : x ∈ l₁ ++ l₂) : x ≠ e := fun heq => he (heq ▸ hx)
  obtain ⟨h₁, h₂⟩ := h.gap (g := (some e, some e)) List.suffix_rfl
    (fun x hx => hin.prev x (hne x hx)) fun x hx => hin.next x (hne x hx)
  apply linked_append.mpr
  refine ⟨h₁, ?_, ?_, h₂⟩
  · rw [hin.prev_self, Option.or_none]
  · rw [hin.next_self, Option.or_none]

/-- What is left is linked. -/
theorem Linked.remove (h : L.Linked none (l₁ ++ e :: l₂) none) (hout : L.LinksOut L' l₁ l₂) :
    L'.Linked none (l₁ ++ l₂) none := by
  obtain ⟨h₁, h₂⟩ := h.gap (g := (l₁.getLast?, l₂.head?)) (List.suffix_cons e l₂)
    (fun x _ => hout.prev x) fun x _ => hout.next x
  apply linked_append.mpr
  rw [Option.or_none, Option.or_none]
  exact ⟨h₁, h₂⟩

end Gap

/-! ## Families of lists -/

variable {ι : Type*} [DecidableEq ι] {H : ι → ListHeader α} {f : ι → List α} {i : ι} {S : List α}

/-- One list of a family changes. The elements that get new links are its own or in
    no list. -/
theorem Holds.update (hf : L.Holds H f) (hrep : L'.Represents h l) (hoff : L.EqOff L' S)
    (hl : l ⊆ S) (hS : ∀ x ∈ S, x ∈ f i ∨ ∀ j, x ∉ f j) :
    L'.Holds (Function.update H i h) (Function.update f i l) := by
  -- the elements that change are in no other list
  have hother (j : ι) (hj : j ≠ i) (x : α) (hx : x ∈ f j) : x ∉ S := by
    intro hxS
    cases hS x hxS with
    | inl hi => exact hj (hf.disjoint j i x hx hi)
    | inr hnone => exact hnone j hx
  constructor
  · intro j
    by_cases hj : j = i
    · subst hj
      rw [Function.update_self, Function.update_self]
      exact hrep
    · rw [Function.update_of_ne hj, Function.update_of_ne hj]
      exact (hf.represents j).congr hoff (hother j hj)
  · -- two lists that share an element: only the changed one could be new to it
    intro j k x hx hx'
    by_cases hj : j = i
    · by_cases hk : k = i
      · rw [hj, hk]
      · subst hj
        rw [Function.update_self] at hx
        rw [Function.update_of_ne hk] at hx'
        exact absurd (hl hx) (hother k hk x hx')
    · rw [Function.update_of_ne hj] at hx
      by_cases hk : k = i
      · subst hk
        rw [Function.update_self] at hx'
        exact absurd (hl hx') (hother j hj x hx)
      · rw [Function.update_of_ne hk] at hx'
        exact hf.disjoint j k x hx hx'

end Links
