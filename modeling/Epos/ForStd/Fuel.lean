import Mathlib.Order.Basic

/-!
# Computations that may not return

A loop or a recursion that need not end takes fuel, and gives nothing when the fuel runs out. It
returns a value when some fuel is enough for it. Nothing here mentions a loop in particular.
-/

namespace Fuel

variable {α β : Type*}

/-- Some fuel is enough for the value. -/
def Returns (f : Nat → Option α) (a : α) : Prop := ∃ n, f n = some a

/-- More fuel changes no value. -/
def Independent (f : Nat → Option α) : Prop := ∀ n a, f n = some a → f (n + 1) = some a

/-- More fuel gives the same result. -/
theorem Independent.le {f : Nat → Option α} (h : Independent f) {n k : Nat} (hnk : n ≤ k) {a : α}
    (ha : f n = some a) : f k = some a := by
  induction hnk with
  | refl => exact ha
  | step _ ih => exact h _ _ ih

/-- There is one result. -/
theorem Returns.unique {f : Nat → Option α} (h : Independent f) {a b : α} (ha : Returns f a)
    (hb : Returns f b) : a = b := by
  obtain ⟨n, hn⟩ := ha
  obtain ⟨k, hk⟩ := hb
  have ha' : f (max n k) = some a := h.le (Nat.le_max_left n k) hn
  have hb' : f (max n k) = some b := h.le (Nat.le_max_right n k) hk
  exact Option.some.inj (ha'.symm.trans hb')

/-- A step of a loop that goes on. -/
theorem Returns.step {f g : Nat → Option α} (h : ∀ n, f (n + 1) = g n) {a : α}
    (hg : Returns g a) : Returns f a := by
  obtain ⟨n, hn⟩ := hg
  exact ⟨n + 1, (h n).trans hn⟩

/-- A computation that uses one unit of fuel before it goes on. -/
theorem returns_succ_iff {f g : Nat → Option α} (hzero : f 0 = none)
    (h : ∀ n, f (n + 1) = g n) {a : α} : Returns f a ↔ Returns g a := by
  constructor
  · intro ⟨n, hn⟩
    cases n with
    | zero =>
      rw [hzero] at hn
      cases hn
    | succ n => exact ⟨n, (h n).symm.trans hn⟩
  · exact Returns.step h

/-- One computation after another. -/
theorem Independent.bind {f : Nat → Option α} {g : α → Nat → Option β} (hf : Independent f)
    (hg : ∀ a, Independent (g a)) : Independent fun n => (f n).bind fun a => g a n := by
  intro n b hb
  obtain ⟨a, ha, hga⟩ := Option.bind_eq_some_iff.mp hb
  exact Option.bind_eq_some_iff.mpr ⟨a, hf n a ha, hg a n b hga⟩

/-- A computation in two parts. -/
theorem returns_bind_iff {f : Nat → Option α} {g : α → Nat → Option β} (hf : Independent f)
    (hg : ∀ a, Independent (g a)) {b : β} :
    Returns (fun n => (f n).bind fun a => g a n) b ↔ ∃ a, Returns f a ∧ Returns (g a) b := by
  constructor
  · intro ⟨n, hn⟩
    obtain ⟨a, ha, hga⟩ := Option.bind_eq_some_iff.mp hn
    exact ⟨a, ⟨n, ha⟩, ⟨n, hga⟩⟩
  · intro ⟨a, ⟨n, hn⟩, ⟨k, hk⟩⟩
    refine ⟨max n k, Option.bind_eq_some_iff.mpr ⟨a, ?_, ?_⟩⟩
    · exact hf.le (Nat.le_max_left n k) hn
    · exact (hg a).le (Nat.le_max_right n k) hk

/-- The result may be mapped. -/
theorem Independent.map {f : Nat → Option α} (h : Independent f) (g : α → β) :
    Independent fun n => (f n).map g := by
  intro n b hb
  obtain ⟨a, ha, hga⟩ := Option.map_eq_some_iff.mp hb
  exact Option.map_eq_some_iff.mpr ⟨a, h n a ha, hga⟩

/-- A mapped result. -/
theorem returns_map_iff {f : Nat → Option α} {g : α → β} {b : β} :
    Returns (fun n => (f n).map g) b ↔ ∃ a, Returns f a ∧ g a = b := by
  constructor
  · intro ⟨n, hn⟩
    obtain ⟨a, ha, hga⟩ := Option.map_eq_some_iff.mp hn
    exact ⟨a, ⟨n, ha⟩, hga⟩
  · intro ⟨a, ⟨n, hn⟩, hga⟩
    exact ⟨n, Option.map_eq_some_iff.mpr ⟨a, hn, hga⟩⟩

/-- What needs no fuel. -/
theorem independent_const (o : Option α) : Independent fun _ => o := fun _ _ h => h

theorem returns_const_iff {o : Option α} {a : α} : Returns (fun _ => o) a ↔ o = some a :=
  ⟨fun ⟨_, h⟩ => h, fun h => ⟨0, h⟩⟩

open Classical in
/-- The value that is returned, if there is one. -/
noncomputable def result (f : Nat → Option α) : Option α :=
  if h : ∃ a, Returns f a then some h.choose else none

/-- The result that is returned. -/
theorem Returns.result_eq {f : Nat → Option α} (h : Independent f) {a : α} (ha : Returns f a) :
    result f = some a := by
  have hex : ∃ a, Returns f a := ⟨a, ha⟩
  rw [result, dif_pos hex, hex.choose_spec.unique h ha]

/-- What is the result is returned. -/
theorem returns_of_result {f : Nat → Option α} {a : α} (h : result f = some a) :
    Returns f a := by
  rw [result] at h
  split at h
  · next hex =>
    cases h
    exact hex.choose_spec
  · cases h

end Fuel
