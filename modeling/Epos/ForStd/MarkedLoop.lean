import Epos.ForStd.Fuel
import Mathlib.Data.List.Basic
import Mathlib.Data.Nat.Find

/-!
# Loops from mark to mark

A loop that runs its body at a marked place and then searches for the next one. It ends when
the body says so, and does not return when there is no further mark. What a run does is a chain
of states, one for each marked place before the last one.
-/

namespace MarkedLoop

variable {σ τ β γ : Type*} (mark : Nat → Bool)

/-- The first marked place from `i` on. -/
def search : Nat → Nat → Option Nat
  | 0, _ => none
  | time + 1, i => if mark i then some i else search time (i + 1)

variable (body : Nat → σ → Nat → Option (σ ⊕ β)) (finish : σ → β)

/-- `body` goes on with a state or ends the loop with a result. A loop that begins at a place
    without a mark is over. -/
def run : Nat → σ → Nat → Option β
  | 0, _, _ => none
  | time + 1, s, p =>
    if mark p then
      (body time s p).bind fun
        | .inr b => some b
        | .inl s => (search mark time (p + 1)).bind (run time s)
    else some (finish s)

/-- `j` is the first marked place from `i` on. -/
structure First (i j : Nat) : Prop where
  le : i ≤ j
  marked : mark j = true
  before : ∀ k, i ≤ k → k < j → mark k = false

/-- The marked places from `a` up to `b`. -/
def marks (a b : Nat) : List Nat := (List.range' a (b - a)).filter mark

/-- The states at the places of a list, each of which goes on. -/
inductive Chain : σ → List Nat → σ → Prop
  | nil {s : σ} : Chain s [] s
  | cons {s s' s'' : σ} {p : Nat} {ps : List Nat}
      (head : Fuel.Returns (fun time => body time s p) (.inl s')) (tail : Chain s' ps s'') :
      Chain s (p :: ps) s''

variable {mark body finish} {a b i j k p q : Nat} {s s' : σ} {r : β}

/-! ## The search -/

/-- A search that ends does so whatever the fuel. -/
theorem search_independent (i : Nat) : Fuel.Independent fun time => search mark time i := by
  intro n j h
  induction n generalizing i with
  | zero => cases h
  | succ n ih =>
    simp only [search] at h ⊢
    split
    · next hi =>
      rw [if_pos hi] at h
      exact h
    · next hi =>
      rw [if_neg hi] at h
      exact ih _ h

/-- An unmarked place is passed over. -/
theorem First.step (hi : mark i = false) : First mark i j ↔ First mark (i + 1) j := by
  constructor
  · intro h
    have hne : i ≠ j := by
      rintro rfl
      rw [h.marked] at hi
      cases hi
    exact ⟨by have := h.le; omega, h.marked, fun k hk => h.before k (by omega)⟩
  · intro h
    refine ⟨by have := h.le; omega, h.marked, fun k hk hkj => ?_⟩
    by_cases hik : k = i
    · rw [hik, hi]
    · exact h.before k (by omega) hkj

/-- A marked place is the first one. -/
theorem First.of_marked (hi : mark i = true) : First mark i j ↔ j = i := by
  constructor
  · intro h
    by_contra hne
    have := h.before i (Nat.le_refl i) (by have := h.le; omega)
    rw [hi] at this
    cases this
  · rintro rfl
    exact ⟨Nat.le_refl _, hi, fun k hk hkj => by omega⟩

/-- The search finds the first marked place. -/
theorem first_of_search {time : Nat} (h : search mark time i = some j) : First mark i j := by
  induction time generalizing i with
  | zero => cases h
  | succ n ih =>
    simp only [search] at h
    split at h
    · next hi =>
      cases h
      exact (First.of_marked hi).mpr rfl
    · next hi => exact (First.step (by simpa using hi)).mpr (ih h)

/-- The first marked place is found. -/
theorem First.search (h : First mark i j) : Fuel.Returns (fun time => search mark time i) j := by
  induction hn : j - i generalizing i with
  | zero =>
    have hij : j = i := by have := h.le; omega
    subst hij
    exact ⟨1, by simp [MarkedLoop.search, h.marked]⟩
  | succ n ih =>
    have hi : mark i = false := h.before i (Nat.le_refl i) (by omega)
    apply Fuel.Returns.step _ (ih ((First.step hi).mp h) (by omega))
    intro time
    simp [MarkedLoop.search, hi]

/-- The search returns exactly the first marked place. -/
theorem returns_search_iff :
    Fuel.Returns (fun time => search mark time i) j ↔ First mark i j :=
  ⟨fun ⟨_, h⟩ => first_of_search h, First.search⟩

/-- Before a marked place there is a first one. -/
theorem exists_first (hij : i ≤ j) (hj : mark j = true) : ∃ k, First mark i k ∧ k ≤ j := by
  have hex : ∃ k, i ≤ k ∧ mark k = true := ⟨j, hij, hj⟩
  refine ⟨Nat.find hex, ⟨(Nat.find_spec hex).1, (Nat.find_spec hex).2, fun k hik hk => ?_⟩, ?_⟩
  · have := Nat.find_min hex hk
    simpa [hik] using this
  · exact Nat.find_min' hex ⟨hij, hj⟩

/-! ## The marked places -/

/-- The marked places of a range. -/
theorem mem_marks : k ∈ marks mark a b ↔ a ≤ k ∧ k < b ∧ mark k = true := by
  unfold marks
  rw [List.mem_filter, List.mem_range'_1]
  constructor
  · rintro ⟨⟨hak, hkb⟩, hk⟩
    exact ⟨hak, by omega, hk⟩
  · rintro ⟨hak, hkb, hk⟩
    exact ⟨⟨hak, by omega⟩, hk⟩

/-- An empty range has none. -/
@[simp] theorem marks_self : marks mark a a = [] := by
  simp [marks]

/-- The marked places of two ranges. -/
theorem marks_append (hab : a ≤ b) (hbk : b ≤ k) :
    marks mark a b ++ marks mark b k = marks mark a k := by
  unfold marks
  rw [← List.filter_append]
  have hsplit : List.range' a (b - a) ++ List.range' b (k - b) = List.range' a (k - a) := by
    have happend := List.range'_append_1 (s := a) (m := b - a) (n := k - b)
    rwa [show a + (b - a) = b by omega, show b - a + (k - b) = k - a by omega] at happend
  rw [hsplit]

/-- A range without marks. -/
theorem marks_eq_nil (h : ∀ k, a ≤ k → k < b → mark k = false) : marks mark a b = [] := by
  rw [List.eq_nil_iff_forall_not_mem]
  intro k hk
  obtain ⟨hak, hkb, hk⟩ := mem_marks.mp hk
  rw [h k hak hkb] at hk
  cases hk

/-- The places from one mark on. -/
theorem marks_cons (hp : mark p = true) (hfirst : First mark (p + 1) q) (hqk : q ≤ k) :
    marks mark p k = p :: marks mark q k := by
  have hpq := hfirst.le
  have hone : marks mark p (p + 1) = [p] := by
    simp [marks, hp]
  rw [← marks_append (b := p + 1) (by omega) (by omega), hone,
    ← marks_append hpq hqk, marks_eq_nil hfirst.before]
  rfl

/-! ## Runs -/

/-- One round of the loop. -/
theorem run_succ (time : Nat) (hp : mark p = true) :
    run mark body finish (time + 1) s p = (body time s p).bind fun
      | .inr b => some b
      | .inl s => (search mark time (p + 1)).bind (run mark body finish time s) := by
  rw [run, if_pos hp]

/-- A loop that ends does so whatever the fuel. -/
theorem run_independent (hbody : ∀ s p, Fuel.Independent fun time => body time s p) (s : σ)
    (p : Nat) : Fuel.Independent fun time => run mark body finish time s p := by
  intro n r h
  induction n generalizing s p with
  | zero => cases h
  | succ n ih =>
    by_cases hp : mark p = true
    · simp only [run_succ _ hp] at h ⊢
      obtain ⟨o, ho, hr⟩ := Option.bind_eq_some_iff.mp h
      have ho' : body (n + 1) s p = some o := hbody s p n o ho
      rw [ho', Option.bind_some]
      cases o with
      | inr b => exact hr
      | inl s' =>
        obtain ⟨q, hq, hrest⟩ := Option.bind_eq_some_iff.mp hr
        exact Option.bind_eq_some_iff.mpr ⟨q, search_independent _ n q hq, ih s' q hrest⟩
    · simp only [run, if_neg hp] at h ⊢
      exact h

/-- Without a mark the loop ends at once. -/
theorem returns_run_of_not_marked (hp : mark p = false) :
    Fuel.Returns (fun time => run mark body finish time s p) r ↔ r = finish s := by
  have hsucc (time : Nat) : run mark body finish (time + 1) s p = some (finish s) := by
    rw [run, hp, if_neg Bool.false_ne_true]
  rw [Fuel.returns_succ_iff rfl hsucc, Fuel.returns_const_iff, Option.some.injEq, eq_comm]

/-- The body ends the loop. -/
theorem returns_run_of_inr (hp : mark p = true)
    (h : Fuel.Returns (fun time => body time s p) (.inr r)) :
    Fuel.Returns (fun time => run mark body finish time s p) r := by
  obtain ⟨n, hn⟩ := h
  refine ⟨n + 1, ?_⟩
  have hn' : body n s p = some (.inr r) := hn
  simp only [run_succ _ hp, hn', Option.bind_some]

/-- The body goes on. -/
theorem returns_run_of_inl (hbody : ∀ s p, Fuel.Independent fun time => body time s p)
    (hp : mark p = true) (h : Fuel.Returns (fun time => body time s p) (.inl s'))
    (hfirst : First mark (p + 1) q)
    (hrest : Fuel.Returns (fun time => run mark body finish time s' q) r) :
    Fuel.Returns (fun time => run mark body finish time s p) r := by
  obtain ⟨n, hn⟩ := h
  obtain ⟨m, hm⟩ := hfirst.search
  obtain ⟨k, hk⟩ := hrest
  -- Time enough for all three.
  let time := max n (max m k)
  have hn' : body time s p = some (.inl s') := (hbody s p).le (by omega) hn
  have hm' : search mark time (p + 1) = some q := (search_independent _).le (by omega) hm
  have hk' : run mark body finish time s' q = some r :=
    (run_independent hbody s' q).le (by omega) hk
  exact ⟨time + 1, by simp only [run_succ _ hp, hn', hm', Option.bind_some, hk']⟩

/-- A loop that ends has gone through a chain of rounds. -/
theorem exists_chain_of_run {time : Nat} (hp : mark p = true)
    (h : run mark body finish time s p = some r) :
    ∃ q, p ≤ q ∧ mark q = true ∧ ∃ s', Chain body s (marks mark p q) s' ∧
      Fuel.Returns (fun time => body time s' q) (.inr r) := by
  induction time generalizing s p with
  | zero => cases h
  | succ n ih =>
    rw [run_succ _ hp] at h
    obtain ⟨o, ho, hr⟩ := Option.bind_eq_some_iff.mp h
    cases o with
    | inr b =>
      -- The loop ends where it is, after no mark at all.
      cases hr
      refine ⟨p, Nat.le_refl p, hp, s, ?_, ⟨n, ho⟩⟩
      rw [marks_self]
      exact .nil
    | inl s₁ =>
      obtain ⟨p', hp', hrest⟩ := Option.bind_eq_some_iff.mp hr
      have hfirst := first_of_search hp'
      obtain ⟨q, hpq, hq, s', hchain, hend⟩ := ih hfirst.marked hrest
      refine ⟨q, by have := hfirst.le; omega, hq, s', ?_, hend⟩
      rw [marks_cons hp hfirst hpq]
      exact .cons ⟨n, ho⟩ hchain

/-- Where a chain of rounds leads the loop ends. -/
theorem Chain.run (hbody : ∀ s p, Fuel.Independent fun time => body time s p)
    (hp : mark p = true) (hpq : p ≤ q) (hq : mark q = true)
    (hchain : Chain body s (marks mark p q) s')
    (hend : Fuel.Returns (fun time => body time s' q) (.inr r)) :
    Fuel.Returns (fun time => run mark body finish time s p) r := by
  -- From one mark to the next the distance to `q` gets smaller.
  induction hn : q - p using Nat.strong_induction_on generalizing s p with
  | _ n ih =>
    obtain rfl | hlt := Nat.eq_or_lt_of_le hpq
    · rw [marks_self] at hchain
      cases hchain
      exact returns_run_of_inr hp hend
    · obtain ⟨p', hfirst, hp'q⟩ : ∃ k, First mark (p + 1) k ∧ k ≤ q := exists_first hlt hq
      rw [marks_cons hp hfirst hp'q] at hchain
      cases hchain with
      | cons head tail =>
        have hle := hfirst.le
        have hrest := ih (q - p') (by omega) hfirst.marked hp'q tail rfl
        exact returns_run_of_inl hbody hp head hfirst hrest

/-- The loop returns what the body ends it with at some mark, in the state that the marks before
    that one lead to. -/
theorem returns_run_iff (hbody : ∀ s p, Fuel.Independent fun time => body time s p)
    (hp : mark p = true) :
    Fuel.Returns (fun time => run mark body finish time s p) r ↔
      ∃ q, p ≤ q ∧ mark q = true ∧ ∃ s', Chain body s (marks mark p q) s' ∧
        Fuel.Returns (fun time => body time s' q) (.inr r) := by
  constructor
  · intro ⟨time, h⟩
    exact exists_chain_of_run hp h
  · rintro ⟨q, hpq, hq, s', hchain, hend⟩
    exact hchain.run hbody hp hpq hq hend

/-- A loop on less of the state. -/
theorem map_run {body' : Nat → τ → Nat → Option (τ ⊕ γ)} {finish' : τ → γ} (f : σ → τ) (g : β → γ)
    (hbody : ∀ time s p, body' time (f s) p = (body time s p).map (Sum.map f g))
    (hfinish : ∀ s, finish' (f s) = g (finish s)) (time : Nat) (s : σ) (p : Nat) :
    run mark body' finish' time (f s) p = (run mark body finish time s p).map g := by
  induction time generalizing s p with
  | zero => rfl
  | succ n ih =>
    by_cases hp : mark p = true
    · rw [run_succ _ hp, run_succ _ hp, hbody]
      cases body n s p with
      | none => rfl
      | some o =>
        cases o with
        | inr b => rfl
        | inl s' =>
          simp only [Option.map_some, Option.bind_some, Sum.map_inl]
          cases search mark n (p + 1) with
          | none => rfl
          | some q => exact ih s' q
    · rw [run, run, if_neg hp, if_neg hp, hfinish]
      rfl

/-- A chain in two parts. -/
theorem Chain.append_iff {ps qs : List Nat} :
    Chain body s (ps ++ qs) s' ↔ ∃ s₁, Chain body s ps s₁ ∧ Chain body s₁ qs s' := by
  induction ps generalizing s with
  | nil =>
    constructor
    · exact fun h => ⟨s, .nil, h⟩
    · rintro ⟨s₁, h, h'⟩
      cases h
      exact h'
  | cons p ps ih =>
    constructor
    · intro h
      cases h with
      | cons head tail =>
        obtain ⟨s₁, h, h'⟩ := ih.mp tail
        exact ⟨s₁, .cons head h, h'⟩
    · rintro ⟨s₁, h, h'⟩
      cases h with
      | cons head tail => exact .cons head (ih.mpr ⟨s₁, tail, h'⟩)

end MarkedLoop
