import Mathlib.Data.List.Chain
import Mathlib.Data.List.Nodup

/-!
# Intrusive singly-linked lists

Elements carry a `next` field, and a list is a header with a size and pointers to its
first and its last element. The `next` fields of a doubly-linked list are such a chain
too. Nothing here mentions the kernel.
-/

/-- What a list stores besides its elements. Only zero and one are told apart from
    other sizes, so that an `Int` serves for an unsigned counter that wraps. -/
structure ListHeader (α : Type*) where
  size : Int := 0
  head : Option α := none
  tail : Option α := none
  deriving DecidableEq, Repr

namespace List

variable {α : Type*}

/-- Each element points to the one behind it, the last to `n`. -/
def Chained (next : α → Option α) : List α → Option α → Prop
  | [], _ => True
  | x :: xs, n => next x = xs.head?.or n ∧ Chained next xs n

/-- The header is the one of a chain of these elements. -/
structure HeadedBy (l : List α) (next : α → Option α) (h : ListHeader α) : Prop where
  size : h.size = l.length
  head : h.head = l.head?
  tail : h.tail = l.getLast?
  chained : l.Chained next none

variable {next next' : α → Option α} {n : Option α} {l l' l₁ l₂ : List α} {x y e : α}

/-! ## The shape of a chain -/

/-- A chain only depends on the links of its elements. -/
theorem Chained.congr (h : l.Chained next n) (hl : ∀ x ∈ l, next' x = next x) :
    l.Chained next' n := by
  induction l with
  | nil => trivial
  | cons x xs ih =>
    exact ⟨(hl x mem_cons_self).trans h.1, ih h.2 fun y hy => hl y (mem_cons_of_mem _ hy)⟩

/-- A chain in two parts. -/
theorem chained_append :
    (l₁ ++ l₂).Chained next n ↔ l₁.Chained next (l₂.head?.or n) ∧ l₂.Chained next n := by
  induction l₁ with
  | nil => simp [Chained]
  | cons x xs ih =>
    simp only [cons_append, Chained, ih, and_assoc]
    cases xs <;> simp

/-- An element determines what follows it. -/
theorem Chained.unique (h : (x :: l).Chained next none) (h' : (x :: l').Chained next none) :
    l = l' := by
  induction l generalizing x l' with
  | nil =>
    have hnext := h.1.symm.trans h'.1
    cases l' with
    | nil => rfl
    | cons y ys => cases hnext
  | cons z zs ih =>
    have hnext := h.1.symm.trans h'.1
    cases l' with
    | nil => cases hnext
    | cons y ys =>
      cases hnext
      rw [ih h.2 h'.2]

/-- A pointer determines the chain from it on. -/
theorem Chained.unique_head (h : l.Chained next none) (h' : l'.Chained next none)
    (hhead : l.head? = l'.head?) : l = l' := by
  cases l with
  | nil =>
    cases l' with
    | nil => rfl
    | cons y ys => cases hhead
  | cons x xs =>
    cases l' with
    | nil => cases hhead
    | cons y ys =>
      cases hhead
      rw [h.unique h']

/-- A header determines its list. -/
theorem HeadedBy.unique {h : ListHeader α} (hl : l.HeadedBy next h) (hl' : l'.HeadedBy next h) :
    l = l' :=
  hl.chained.unique_head hl'.chained (hl.head.symm.trans hl'.head)

/-- The chain from the pointer `p` on ends, and `x` is in it. -/
def ChainHas (next : α → Option α) (p : Option α) (x : α) : Prop :=
  ∃ l : List α, l.Chained next none ∧ l.head? = p ∧ x ∈ l

/-- Following the links finds exactly the elements. -/
theorem Chained.chainHas_iff (h : l.Chained next none) : ChainHas next l.head? x ↔ x ∈ l := by
  constructor
  · intro ⟨l', h', hhead, hx⟩
    exact h'.unique_head h hhead ▸ hx
  · intro hx
    exact ⟨l, h, rfl, hx⟩

/-- A chain that ends does not run into itself. -/
theorem Chained.nodup (h : l.Chained next none) : l.Nodup := by
  induction l with
  | nil => exact nodup_nil
  | cons x xs ih =>
    refine nodup_cons.mpr ⟨fun hx => ?_, ih h.2⟩
    obtain ⟨as, bs, hxs⟩ := append_of_mem hx
    have hrest : (x :: bs).Chained next none := by
      have hsplit := h.2
      rw [hxs] at hsplit
      exact (chained_append.mp hsplit).2
    have heq : xs = bs := h.unique hrest
    have hlen := congrArg length hxs
    rw [heq, length_append, length_cons] at hlen
    omega

/-- No element leads to itself. -/
theorem Chained.next_ne (h : l.Chained next none) (hx : x ∈ l) : next x ≠ some x := by
  obtain ⟨as, bs, rfl⟩ := append_of_mem hx
  obtain ⟨-, hnext, hbs⟩ := chained_append.mp h
  have hbehind : (x :: bs).Chained next none := ⟨hnext, hbs⟩
  have hnd := hbehind.nodup
  intro heq
  rw [heq, Option.or_none] at hnext
  exact (nodup_cons.mp hnd).1 (mem_of_mem_head? hnext.symm)

/-- A list only depends on the links of its elements. -/
theorem HeadedBy.congr {h : ListHeader α} (hl : l.HeadedBy next h)
    (hnext : ∀ x ∈ l, next' x = next x) : l.HeadedBy next' h :=
  ⟨hl.size, hl.head, hl.tail, hl.chained.congr hnext⟩

/-- No element comes twice. -/
theorem HeadedBy.nodup {h : ListHeader α} (hl : l.HeadedBy next h) : l.Nodup := hl.chained.nodup

/-- What is behind the chain changes with the last element. -/
theorem Chained.relink_last {n' : Option α} (h : l.Chained next n) (hnd : l.Nodup)
    (hnext : ∀ x ∈ l, l.getLast? ≠ some x → next' x = next x)
    (hlast : ∀ x, l.getLast? = some x → next' x = n') : l.Chained next' n' := by
  induction l with
  | nil => trivial
  | cons x xs ih =>
    obtain ⟨hx, hxs⟩ := nodup_cons.mp hnd
    cases xs with
    | nil => exact ⟨hlast x rfl, trivial⟩
    | cons y ys =>
      rw [getLast?_cons_cons] at hnext hlast
      have hne : (y :: ys).getLast? ≠ some x := fun heq => hx (mem_of_mem_getLast? heq)
      exact ⟨(hnext x mem_cons_self hne).trans h.1,
        ih h.2 hxs (fun z hz => hnext z (mem_cons_of_mem _ hz)) hlast⟩

section Gap

variable [DecidableEq α]

/-- The first elements lead to whatever is put behind them, the last ones stay. -/
theorem Chained.gap {g : Option α} (h : (l₁ ++ l).Chained next none) (hl : l₂ <:+ l)
    (hnext : ∀ x ∈ l₁ ++ l₂, next' x = if l₁.getLast? = some x then g else next x) :
    l₁.Chained next' g ∧ l₂.Chained next' none := by
  have hnd := h.nodup
  obtain ⟨m, rfl⟩ := hl
  obtain ⟨h₁, h₂⟩ := chained_append.mp h
  have h₂' := (chained_append.mp h₂).2
  obtain ⟨hnd₁, -, hdisj⟩ := nodup_append.mp hnd
  constructor
  · apply h₁.relink_last hnd₁
    · intro x hx hne
      rw [hnext x (mem_append_left _ hx), if_neg hne]
    · intro x hx
      rw [hnext x (mem_append_left _ (mem_of_mem_getLast? hx)), if_pos hx]
  · apply h₂'.congr
    intro x hx
    have hne : l₁.getLast? ≠ some x := fun heq =>
      hdisj x (mem_of_mem_getLast? heq) x (mem_append_right _ hx) rfl
    rw [hnext x (mem_append_right _ hx), if_neg hne]

/-- An element that is linked in between two parts. -/
theorem Chained.insert (l₁ : List α) (h : (l₁ ++ l₂).Chained next none) (he : e ∉ l₁ ++ l₂)
    (hself : next' e = l₂.head?)
    (hnext : ∀ x, x ≠ e → next' x = if l₁.getLast? = some x then some e else next x) :
    (l₁ ++ e :: l₂).Chained next' none := by
  obtain ⟨h₁, h₂⟩ := h.gap (g := some e) suffix_rfl fun x hx =>
    hnext x fun heq => he (heq ▸ hx)
  exact chained_append.mpr ⟨h₁, by rw [hself, Option.or_none], h₂⟩

/-- An element that is linked out between two parts. -/
theorem Chained.remove (h : (l₁ ++ e :: l₂).Chained next none)
    (hnext : ∀ x ∈ l₁ ++ l₂, next' x = if l₁.getLast? = some x then l₂.head? else next x) :
    (l₁ ++ l₂).Chained next' none := by
  obtain ⟨h₁, h₂⟩ := h.gap (suffix_cons e l₂) hnext
  exact chained_append.mpr ⟨by rwa [Option.or_none], h₂⟩

end Gap

/-! ## Lists that share elements -/

/-- The header is the one of a chain of these elements. What the last one points to is
    left open. -/
structure PartOf (l : List α) (next : α → Option α) (h : ListHeader α) : Prop where
  size : h.size = l.length
  head : h.head = l.head?
  tail : h.tail = l.getLast?
  linked : l.IsChain fun x y => next x = some y

/-- An element of a list without duplicates is in it once. -/
theorem Nodup.split_unique (h : (l₁ ++ x :: l₂).Nodup) (heq : l₁ ++ x :: l₂ = l ++ x :: l') :
    l₁ = l ∧ l₂ = l' := by
  have hx : x ∉ l₁ ++ l₂ := (nodup_cons.mp (nodup_middle.mp h)).1
  rw [mem_append, not_or] at hx
  obtain ⟨hl₁, -, hl₂⟩ := (append_cons_inj_of_notMem hx.1 hx.2).mp heq
  exact ⟨hl₁, hl₂⟩

/-- In a list without duplicates one element is behind another. -/
theorem Nodup.eq_of_behind {S : List α} (hS : S.Nodup) (hy : [x, y] <:+: S)
    (he : [x, e] <:+: S) : y = e := by
  obtain ⟨as, bs, rfl⟩ := hy
  obtain ⟨as', bs', heq⟩ := he
  simp only [append_assoc, cons_append, nil_append] at hS heq
  exact (cons.inj (hS.split_unique heq.symm).2).1

/-- Nothing is behind the last element. -/
theorem Nodup.getLast?_ne_of_behind {S : List α} (hS : S.Nodup) (hy : [x, y] <:+: S) :
    S.getLast? ≠ some x := by
  intro hlast
  obtain ⟨init, hinit⟩ := getLast?_eq_some_iff.mp hlast
  obtain ⟨as, bs, rfl⟩ := hy
  simp only [append_assoc, cons_append, nil_append] at hS hinit
  cases (hS.split_unique hinit).2

variable [DecidableEq α]

/-- An element can get the link to what is behind it. -/
theorem IsChain.update_next (h : l.IsChain fun a b => next a = some b)
    (hx : ∀ y, [x, y] <:+: l → n = some y) :
    l.IsChain fun a b => Function.update next x n a = some b := by
  rw [isChain_iff_forall_rel_of_append_cons_cons] at h ⊢
  intro a b l₁ l₂ heq
  by_cases hax : a = x
  · subst hax
    rw [Function.update_self]
    exact hx b ⟨l₁, l₂, by rw [heq, append_assoc]; rfl⟩
  · rw [Function.update_of_ne hax]
    exact h heq

/-- The link of an element of a sequence to the next one is right for the other parts of the
    sequence, and for lists that are apart from it. -/
theorem IsChain.update_of_behind {S : List α} (hS : S.Nodup) (hx : [x, e] <:+: S)
    (hpart : l <:+: S ∨ ∀ y ∈ l, y ∉ S) (h : l.IsChain fun a b => next a = some b) :
    l.IsChain fun a b => Function.update next x (some e) a = some b := by
  refine h.update_next fun y hy => ?_
  cases hpart with
  | inl hinfix => rw [hS.eq_of_behind (hy.trans hinfix) hx]
  | inr hapart => exact absurd (hx.subset mem_cons_self) (hapart x (hy.subset mem_cons_self))

/-- So is any link of the last element. -/
theorem IsChain.update_of_getLast? {S : List α} (hS : S.Nodup) (hx : S.getLast? = some x)
    (hpart : l <:+: S ∨ ∀ y ∈ l, y ∉ S) (h : l.IsChain fun a b => next a = some b) :
    l.IsChain fun a b => Function.update next x n a = some b := by
  refine h.update_next fun y hy => ?_
  cases hpart with
  | inl hinfix => exact absurd hx (hS.getLast?_ne_of_behind (hy.trans hinfix))
  | inr hapart => exact absurd (mem_of_getLast? hx) (hapart x (hy.subset mem_cons_self))

omit [DecidableEq α] in
/-- A part of a list without duplicates that ends where the list ends is at its end. -/
theorem IsInfix.isSuffix_of_getLast? {S : List α} (h : l <:+: S) (hS : S.Nodup)
    (hlast : l.getLast? = S.getLast?) (hne : l ≠ []) : l <:+ S := by
  obtain ⟨as, bs, heq⟩ := h
  obtain ⟨x, hx⟩ := getLast?_isSome.mpr hne |> Option.isSome_iff_exists.mp
  obtain ⟨init, rfl⟩ := getLast?_eq_some_iff.mp hx
  obtain ⟨init', hinit'⟩ := getLast?_eq_some_iff.mp (hlast.symm.trans hx)
  have hend : (as ++ init) ++ x :: bs = init' ++ x :: [] := by
    rw [← hinit', ← heq]
    simp only [append_assoc, cons_append, nil_append]
  have hnd : ((as ++ init) ++ x :: bs).Nodup := by
    rw [hend, ← hinit']
    exact hS
  obtain rfl := (hnd.split_unique hend).2
  exact ⟨as, by rw [← heq, append_nil]⟩

end List
