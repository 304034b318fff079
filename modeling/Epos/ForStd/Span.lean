import Mathlib.Algebra.GroupWithZero.Nat
import Mathlib.Data.List.Nodup
import Mathlib.Data.List.Perm.Basic

/-!
# Ranges of cells

Ranges of natural numbers, and lists of ranges by the cells that they cover. That no
cell is covered twice says that the ranges do not overlap, and that the cells are the
same up to their order that none was lost. Nothing here mentions the kernel.
-/

/-- The cells from `start` on, `size` many. -/
structure Span where
  start : Nat
  size : Nat
  deriving DecidableEq, Repr

namespace Span

variable {s t : Span} {x a k k₁ k₂ : Nat}

def stop (s : Span) : Nat := s.start + s.size

def cells (s : Span) : List Nat := List.range' s.start s.size

/-- One ends before the other begins. -/
def Apart (s t : Span) : Prop := s.stop ≤ t.start ∨ t.stop ≤ s.start

/-- The cells from the start up to the stop. -/
@[simp] theorem mem_cells : x ∈ s.cells ↔ s.start ≤ x ∧ x < s.stop := List.mem_range'_1

/-- As many cells as the size. -/
@[simp] theorem length_cells : s.cells.length = s.size := List.length_range'

/-- No cell comes twice. -/
theorem nodup_cells : s.cells.Nodup := List.nodup_range'

/-- An empty span has no cell. -/
@[simp] theorem cells_zero : cells ⟨a, 0⟩ = [] := rfl

/-- A range splits into two. -/
theorem cells_add : cells ⟨a, k₁ + k₂⟩ = cells ⟨a, k₁⟩ ++ cells ⟨a + k₁, k₂⟩ :=
  List.range'_append_1.symm

/-- A span that is not empty begins with its start. -/
theorem start_mem (h : 0 < s.size) : s.start ∈ s.cells := by
  rw [mem_cells, stop]
  omega

/-- Spans without a common cell are apart. -/
theorem apart_of_disjoint (hs : 0 < s.size) (ht : 0 < t.size)
    (h : ∀ x ∈ s.cells, x ∉ t.cells) : s.Apart t := by
  have hstart := h (max s.start t.start)
  rw [mem_cells, mem_cells] at hstart
  unfold Apart
  unfold stop at *
  omega

end Span

namespace List

/-- There are fewer numbers between zero and `N` than `N`. -/
theorem Nodup.length_lt {l : List Nat} {N : Nat} (h : l.Nodup) (hl : ∀ x ∈ l, 0 < x ∧ x < N)
    (hN : 0 < N) : l.length < N := by
  have hsub : l ⊆ range' 1 (N - 1) := by
    intro x hx
    obtain ⟨hpos, hlt⟩ := hl x hx
    rw [mem_range'_1]
    omega
  have hle := (subperm_of_subset h hsub).length_le
  rw [length_range'] at hle
  omega

variable {S T F : List Span} {s t : Span} {x : Nat}

/-- All cells of the ranges. -/
def cells (S : List Span) : List Nat := S.flatMap Span.cells

/-- No span, no cell. -/
@[simp] theorem cells_nil : ([] : List Span).cells = [] := rfl

/-- The cells of one span more. -/
@[simp] theorem cells_cons : (s :: S).cells = s.cells ++ S.cells := rfl

/-- The cells of two lists. -/
@[simp] theorem cells_append : (S ++ T).cells = S.cells ++ T.cells := flatMap_append

/-- A cell of a list is in one of its spans. -/
theorem mem_cells {x : Nat} : x ∈ S.cells ↔ ∃ s ∈ S, x ∈ s.cells := mem_flatMap

/-- The order of the spans only permutes the cells. -/
theorem Perm.cells (h : S.Perm T) : S.cells.Perm T.cells := h.flatMap_right _

/-- As many cells as the sizes add up to. -/
theorem length_cells : S.cells.length = (S.map Span.size).sum := by
  induction S with
  | nil => rfl
  | cons s S ih =>
    rw [cells_cons, length_append, Span.length_cells, ih, map_cons, sum_cons]

/-- Ranges that cover no cell twice do not overlap. -/
theorem pairwise_apart (h : S.cells.Nodup) (hpos : ∀ s ∈ S, 0 < s.size) :
    S.Pairwise Span.Apart := by
  induction S with
  | nil => exact .nil
  | cons s S ih =>
    rw [cells_cons] at h
    obtain ⟨-, hS, hdisj⟩ := nodup_append.mp h
    refine pairwise_cons.mpr ⟨fun t ht => ?_, ih hS fun t ht => hpos t (mem_cons_of_mem _ ht)⟩
    apply Span.apart_of_disjoint (hpos s mem_cons_self) (hpos t (mem_cons_of_mem _ ht))
    intro x hxs hxt
    exact hdisj x hxs x (mem_cells.mpr ⟨t, ht, hxt⟩) rfl

/-- No range begins where another ends. -/
def Unmerged (S : List Span) : Prop := ∀ s ∈ S, ∀ t ∈ S, s.stop ≠ t.start

/-- Fewer spans are unmerged too. -/
theorem Unmerged.subset (h : S.Unmerged) (hsub : T ⊆ S) : T.Unmerged := fun s hs t ht =>
  h s (hsub hs) t (hsub ht)

/-- One span more, which touches none. -/
theorem Unmerged.cons (h : S.Unmerged) (hs : 0 < s.size) (hbefore : ∀ t ∈ S, t.stop ≠ s.start)
    (hbehind : ∀ t ∈ S, s.stop ≠ t.start) : (s :: S).Unmerged := by
  intro t ht u hu
  cases mem_cons.mp ht with
  | inl heq =>
    subst heq
    cases mem_cons.mp hu with
    | inl heq =>
      subst heq
      unfold Span.stop
      omega
    | inr hu => exact hbehind u hu
  | inr ht =>
    cases mem_cons.mp hu with
    | inl heq => exact heq ▸ hbefore t ht
    | inr hu => exact h t ht u hu

/-! ## Joining neighbours -/

/-- `s` is joined with the range of `S` that begins where `s` ends, if there is one. -/
inductive JoinRight (S : List Span) (s : Span) : List Span → Span → Prop
  | none (h : ∀ t ∈ S, s.stop ≠ t.start) : JoinRight S s S s
  | some {t : Span} {T : List Span} (hS : S.Perm (t :: T)) (h : s.stop = t.start) :
    JoinRight S s T ⟨s.start, s.size + t.size⟩

/-- `s` is added to `S`, joined with the range that ends where `s` begins, if there is one. -/
inductive JoinLeft (S : List Span) (s : Span) : List Span → Prop
  | none (h : ∀ t ∈ S, t.stop ≠ s.start) : JoinLeft S s (s :: S)
  | some {t : Span} {T : List Span} (hS : S.Perm (t :: T)) (h : t.stop = s.start) :
    JoinLeft S s (⟨t.start, t.size + s.size⟩ :: T)

/-- `F` is `S` with `s` joined to both of its neighbours. -/
def Joined (S : List Span) (s : Span) (F : List Span) : Prop :=
  ∃ s' T, S.JoinRight s T s' ∧ ∃ T', T.JoinLeft s' T' ∧ F.Perm T'

variable {k : Nat} {s' : Span} {T' : List Span}

/-- Joining to the right keeps the cells. -/
theorem JoinRight.cells (h : S.JoinRight s T s') :
    (s'.cells ++ T.cells).Perm (s.cells ++ S.cells) := by
  cases h with
  | none => exact .refl _
  | some hS h =>
    rw [Span.cells_add, append_assoc]
    refine .append_left _ ?_
    have hstop : s.start + s.size = s.stop := rfl
    rw [hstop, h]
    exact hS.cells.symm

/-- Joining to the right takes spans away only. -/
theorem JoinRight.subset (h : S.JoinRight s T s') : T ⊆ S := by
  cases h with
  | none => exact Subset.refl _
  | some hS => exact fun x hx => hS.mem_iff.mpr (mem_cons_of_mem _ hx)

/-- Nothing touches the joined span on its right any more. -/
theorem JoinRight.unmerged (h : S.JoinRight s T s') (hS : S.Unmerged) :
    ∀ t ∈ T, s'.stop ≠ t.start := by
  cases h with
  | none h => exact h
  | @some t _ hperm h =>
    intro u hu
    have hne := hS t (hperm.mem_iff.mpr mem_cons_self) u
      (hperm.mem_iff.mpr (mem_cons_of_mem _ hu))
    unfold Span.stop at *
    dsimp only
    omega

/-- The joined span is not smaller. -/
theorem JoinRight.le_size (h : S.JoinRight s T s') (hs : k ≤ s.size) : k ≤ s'.size := by
  cases h with
  | none => exact hs
  | some => exact Nat.le_add_right_of_le hs

/-- Joining to the left keeps the cells. -/
theorem JoinLeft.cells (h : S.JoinLeft s T) : T.cells.Perm (s.cells ++ S.cells) := by
  cases h with
  | none => exact .refl _
  | @some t T hS h =>
    have hstop : t.start + t.size = t.stop := rfl
    rw [cells_cons, Span.cells_add, hstop, h]
    refine (perm_append_comm.append_right _).trans ?_
    rw [append_assoc]
    exact .append_left _ hS.cells.symm

/-- Joining to the left leaves no two spans that touch. -/
theorem JoinLeft.unmerged (h : S.JoinLeft s T) (hS : S.Unmerged) (hs : 0 < s.size)
    (hbehind : ∀ t ∈ S, s.stop ≠ t.start) : T.Unmerged := by
  cases h with
  | none h => exact hS.cons hs h hbehind
  | @some t T hperm h =>
    have hsub : T ⊆ S := fun x hx => hperm.mem_iff.mpr (mem_cons_of_mem _ hx)
    have ht : t ∈ S := hperm.mem_iff.mpr mem_cons_self
    refine (hS.subset hsub).cons ?_ (fun u hu => hS u (hsub hu) t ht) fun u hu => ?_
    · exact Nat.add_pos_right _ hs
    · have hne := hbehind u (hsub hu)
      unfold Span.stop at *
      dsimp only
      omega

/-- No span is smaller than before. -/
theorem JoinLeft.le_size (h : S.JoinLeft s T) (hs : k ≤ s.size) (hS : ∀ t ∈ S, k ≤ t.size) :
    ∀ t ∈ T, k ≤ t.size := by
  cases h with
  | none => exact forall_mem_cons.mpr ⟨hs, hS⟩
  | some hperm =>
    refine forall_mem_cons.mpr ⟨Nat.le_add_left_of_le hs, fun t ht => hS t ?_⟩
    exact hperm.mem_iff.mpr (mem_cons_of_mem _ ht)

/-- Joining on both sides keeps the cells. -/
theorem Joined.cells (h : S.Joined s F) : F.cells.Perm (s.cells ++ S.cells) := by
  obtain ⟨s', T, hright, T', hleft, hperm⟩ := h
  exact hperm.cells.trans (hleft.cells.trans hright.cells)

/-- Joining on both sides leaves no two spans that touch. -/
theorem Joined.unmerged (h : S.Joined s F) (hS : S.Unmerged) (hs : 0 < s.size) :
    F.Unmerged := by
  obtain ⟨s', T, hright, T', hleft, hperm⟩ := h
  have hT' := hleft.unmerged (hS.subset hright.subset) (hright.le_size hs) (hright.unmerged hS)
  exact hT'.subset hperm.subset

/-- No span is smaller than before. -/
theorem Joined.le_size (h : S.Joined s F) (hs : k ≤ s.size) (hS : ∀ t ∈ S, k ≤ t.size) :
    ∀ t ∈ F, k ≤ t.size := by
  obtain ⟨s', T, hright, T', hleft, hperm⟩ := h
  intro t ht
  exact hleft.le_size (hright.le_size hs) (fun t ht => hS t (hright.subset ht)) t
    (hperm.mem_iff.mp ht)

/-! ## Cutting the end off -/

/-- `F` is `S` without the last `n` cells of the range that begins at `a`, of which `k` are
    left. A range of which nothing is left is gone. -/
def Cut (S : List Span) (a k n : Nat) (F : List Span) : Prop :=
  ∃ T, S.Perm (⟨a, k + n⟩ :: T) ∧ F.Perm (if k = 0 then T else ⟨a, k⟩ :: T)

variable {a n m : Nat}

/-- A cut takes the end of a span and keeps the rest. -/
theorem Cut.cells (h : S.Cut a k n F) :
    S.cells.Perm (Span.cells ⟨a + k, n⟩ ++ F.cells) := by
  obtain ⟨T, hS, hF⟩ := h
  have hcells : F.cells.Perm (Span.cells ⟨a, k⟩ ++ T.cells) := by
    refine hF.cells.trans ?_
    by_cases hk : k = 0
    · subst hk
      exact .refl _
    · rw [if_neg hk]
      exact .refl _
  refine hS.cells.trans ?_
  rw [cells_cons, Span.cells_add]
  refine (perm_append_comm.append_right _).trans ?_
  rw [append_assoc]
  exact .append_left _ hcells.symm

/-- A span after the cut was there, or is the rest. -/
theorem Cut.mem (h : S.Cut a k n F) {t : Span} (ht : t ∈ F) : t ∈ S ∨ k ≠ 0 ∧ t = ⟨a, k⟩ := by
  obtain ⟨T, hS, hF⟩ := h
  rw [hF.mem_iff] at ht
  by_cases hk : k = 0
  · rw [if_pos hk] at ht
    exact .inl (hS.mem_iff.mpr (mem_cons_of_mem _ ht))
  · rw [if_neg hk] at ht
    cases mem_cons.mp ht with
    | inl heq => exact .inr ⟨hk, heq⟩
    | inr ht => exact .inl (hS.mem_iff.mpr (mem_cons_of_mem _ ht))

/-- What is left of the range is a range. -/
theorem Cut.rest_mem (h : S.Cut a k n F) (hk : k ≠ 0) : ⟨a, k⟩ ∈ F := by
  obtain ⟨T, -, hF⟩ := h
  rw [if_neg hk] at hF
  exact hF.mem_iff.mpr mem_cons_self

/-- The other spans stay. -/
theorem Cut.mem_of_ne (h : S.Cut a k n F) {t : Span} (ht : t ∈ S) (hne : t.start ≠ a) :
    t ∈ F := by
  obtain ⟨T, hS, hF⟩ := h
  have hT : t ∈ T := by
    cases mem_cons.mp (hS.mem_iff.mp ht) with
    | inl heq => exact absurd (congrArg Span.start heq) hne
    | inr ht => exact ht
  rw [hF.mem_iff]
  by_cases hk : k = 0
  · rwa [if_pos hk]
  · rw [if_neg hk]
    exact mem_cons_of_mem _ hT

/-- No span gets smaller than the rest. -/
theorem Cut.le_size (h : S.Cut a k n F) (hk : k = 0 ∨ m ≤ k) (hS : ∀ t ∈ S, m ≤ t.size) :
    ∀ t ∈ F, m ≤ t.size := by
  intro t ht
  cases h.mem ht with
  | inl ht => exact hS t ht
  | inr heq =>
    obtain ⟨hne, rfl⟩ := heq
    exact hk.resolve_left hne

/-- Nothing was cut off. -/
theorem Cut.perm (h : S.Cut a k 0 F) (hk : k ≠ 0) : F.Perm S := by
  obtain ⟨T, hS, hF⟩ := h
  rw [if_neg hk] at hF
  exact hF.trans hS.symm

/-- A cut makes no two spans touch. -/
theorem Cut.unmerged (h : S.Cut a k n F) (hS : S.Unmerged) (hnd : S.cells.Nodup)
    (hpos : ∀ t ∈ S, 0 < t.size) (hn : 0 < n) : F.Unmerged := by
  obtain ⟨T, hperm, hF⟩ := h
  have hwhole : ⟨a, k + n⟩ ∈ S := hperm.mem_iff.mpr mem_cons_self
  have hsub : T ⊆ S := fun x hx => hperm.mem_iff.mpr (mem_cons_of_mem _ hx)
  by_cases hk : k = 0
  · rw [if_pos hk] at hF
    exact (hS.subset hsub).subset hF.subset
  · rw [if_neg hk] at hF
    refine ((hS.subset hsub).cons (Nat.pos_of_ne_zero hk) ?_ ?_).subset hF.subset
    · exact fun t ht => hS t (hsub ht) ⟨a, k + n⟩ hwhole
    · -- where the range ends now was a cell of its own
      intro t ht heq
      have hmem : t.start ∈ Span.cells ⟨a, k + n⟩ := by
        rw [← heq, Span.mem_cells]
        simp only [Span.stop]
        omega
      rw [hperm.cells.nodup_iff, cells_cons] at hnd
      have hdisj := (nodup_append.mp hnd).2.2
      have hstart := Span.start_mem (hpos t (hsub ht))
      exact hdisj _ hmem _ (mem_cells.mpr ⟨t, ht, hstart⟩) rfl

end List
