import Mathlib.Data.Set.Basic

/-!
# Guarded transition systems

A system has initial states, a guard for every action and a total, computable
`next`. The guard carries what the environment promises (who may act and how);
`next` is what the code does. A run is an initial state and a list of actions
each of which is enabled where it is taken. Nothing here mentions the kernel.
-/

/-- Initial states, guards and the effect of every action. -/
structure TransitionSystem (σ α : Type*) where
  Init : σ → Prop
  Enabled : σ → α → Prop
  next : σ → α → σ

namespace TransitionSystem

variable {σ α : Type*} (S : TransitionSystem σ α)

/-- The state after the actions `as`. -/
def run : σ → List α → σ
  | s, [] => s
  | s, a :: as => run (S.next s a) as

/-- Every action is enabled in the state in which it is taken. -/
def Valid : σ → List α → Prop
  | _, [] => True
  | s, a :: as => S.Enabled s a ∧ Valid (S.next s a) as

/-- `P` holds in every state of the run, the first and the last included. -/
def Always (P : σ → Prop) : σ → List α → Prop
  | s, [] => P s
  | s, a :: as => P s ∧ Always P (S.next s a) as

/-- Every step of the run meets `C`, a condition on the state before it. -/
def Meets (C : σ → α → Prop) : σ → List α → Prop
  | _, [] => True
  | s, a :: as => C s a ∧ Meets C (S.next s a) as

/-- The states that some run reaches. -/
inductive Reachable : σ → Prop
  | init {s : σ} : S.Init s → Reachable s
  | step {s : σ} {a : α} : Reachable s → S.Enabled s a → Reachable (S.next s a)

variable {S}

instance decidableMeets (C : σ → α → Prop) [∀ s a, Decidable (C s a)] :
    (s : σ) → (as : List α) → Decidable (S.Meets C s as)
  | _, [] => isTrue trivial
  | s, a :: as =>
    have := decidableMeets C (S.next s a) as
    inferInstanceAs (Decidable (_ ∧ _))

instance decidableValid [∀ s a, Decidable (S.Enabled s a)] :
    (s : σ) → (as : List α) → Decidable (S.Valid s as)
  | _, [] => isTrue trivial
  | s, a :: as =>
    have := decidableValid (S.next s a) as
    inferInstanceAs (Decidable (_ ∧ _))

theorem Always.head {P : σ → Prop} {s : σ} {as : List α} (h : S.Always P s as) : P s := by
  cases as with
  | nil => exact h
  | cons a as => exact h.1

theorem Always.last {P : σ → Prop} {s : σ} {as : List α} (h : S.Always P s as) :
    P (S.run s as) := by
  induction as generalizing s with
  | nil => exact h
  | cons a as ih => exact ih h.2

/-- A valid run stays among the reachable states. -/
theorem Valid.reachable {s : σ} {as : List α} (h : S.Valid s as) (hs : S.Reachable s) :
    S.Reachable (S.run s as) := by
  induction as generalizing s with
  | nil => exact hs
  | cons a as ih => exact ih h.2 (hs.step h.1)

/-- An inductive invariant holds in every reachable state. -/
theorem Reachable.invariant {I : σ → Prop} {s : σ} (h : S.Reachable s)
    (hinit : ∀ s, S.Init s → I s)
    (hstep : ∀ s a, I s → S.Enabled s a → I (S.next s a)) : I s := by
  induction h with
  | init hs => exact hinit _ hs
  | step _ ha ih => exact hstep _ _ ih ha

/-- An invariant that every step meeting `C` preserves holds all along a run
    whose steps all meet `C`. -/
theorem Meets.always {I : σ → Prop} {C : σ → α → Prop}
    (hstep : ∀ s a, I s → S.Enabled s a → C s a → I (S.next s a))
    {s : σ} {as : List α} (hs : I s) (hv : S.Valid s as) (hm : S.Meets C s as) :
    S.Always I s as := by
  induction as generalizing s with
  | nil => exact hs
  | cons a as ih => exact ⟨hs, ih (hstep s a hs hv.1 hm.1) hv.2 hm.2⟩

/-- Where an invariant makes the steps that meet `C` meet `D`, so does a run. -/
theorem Meets.meets {I : σ → Prop} {C D : σ → α → Prop}
    (hstep : ∀ s a, I s → S.Enabled s a → C s a → I (S.next s a))
    (himp : ∀ s a, I s → S.Enabled s a → C s a → D s a)
    {s : σ} {as : List α} (hs : I s) (hv : S.Valid s as) (hm : S.Meets C s as) :
    S.Meets D s as := by
  induction as generalizing s with
  | nil => trivial
  | cons a as ih =>
    exact ⟨himp s a hs hv.1 hm.1, ih (hstep s a hs hv.1 hm.1) hv.2 hm.2⟩

/-- What an invariant makes every step meet, a run meets. -/
theorem Valid.meets {I : σ → Prop} {D : σ → α → Prop}
    (hstep : ∀ s a, I s → S.Enabled s a → I (S.next s a))
    (himp : ∀ s a, I s → S.Enabled s a → D s a) {s : σ} {as : List α} (hs : I s)
    (hv : S.Valid s as) : S.Meets D s as := by
  induction as generalizing s with
  | nil => trivial
  | cons a as ih => exact ⟨himp s a hs hv.1, ih (hstep s a hs hv.1) hv.2⟩

theorem Always.imp {P Q : σ → Prop} (h : ∀ s, P s → Q s) {s : σ} {as : List α}
    (hp : S.Always P s as) : S.Always Q s as := by
  induction as generalizing s with
  | nil => exact h s hp
  | cons a as ih => exact ⟨h s hp.1, ih hp.2⟩

/-- When, under an invariant `I`, a step keeps `P` exactly if it meets `C`, the
    runs that stay in `P` are exactly the runs whose steps all meet `C`. The
    invariant may need `P`. -/
theorem always_iff_meets_of {I P : σ → Prop} {C : σ → α → Prop}
    (hinv : ∀ s a, I s → P s → S.Enabled s a → I (S.next s a))
    (hstep : ∀ s a, I s → P s → S.Enabled s a → (P (S.next s a) ↔ C s a))
    {s : σ} {as : List α} (hI : I s) (hP : P s) (hv : S.Valid s as) :
    S.Always P s as ↔ S.Meets C s as := by
  induction as generalizing s with
  | nil => exact ⟨fun _ => trivial, fun _ => hP⟩
  | cons a as ih =>
    have key := hstep s a hI hP hv.1
    have hI' : I (S.next s a) := hinv s a hI hP hv.1
    constructor
    · intro h
      have hP' : P (S.next s a) := h.2.head
      exact ⟨key.mp hP', (ih hI' hP' hv.2).mp h.2⟩
    · intro h
      have hP' : P (S.next s a) := key.mpr h.1
      exact ⟨hP, (ih hI' hP' hv.2).mpr h.2⟩

/-- `always_iff_meets_of` for an invariant of all runs. -/
theorem always_iff_meets {I P : σ → Prop} {C : σ → α → Prop}
    (hinv : ∀ s a, I s → S.Enabled s a → I (S.next s a))
    (hstep : ∀ s a, I s → P s → S.Enabled s a → (P (S.next s a) ↔ C s a))
    {s : σ} {as : List α} (hI : I s) (hP : P s) (hv : S.Valid s as) :
    S.Always P s as ↔ S.Meets C s as :=
  always_iff_meets_of (fun s a hI _ => hinv s a hI) hstep hI hP hv

/-- When a step out of an invariant `I` keeps `P` and meets `D` exactly if it meets
    `C`, and then also keeps `I`, the runs that stay in `P` with steps that meet `D`
    are exactly those whose steps meet `C`. Here `I` may fail after other steps. -/
theorem always_and_meets_iff {I P : σ → Prop} {C D : σ → α → Prop}
    (himp : ∀ s, I s → P s)
    (hinv : ∀ s a, I s → S.Enabled s a → C s a → I (S.next s a))
    (hstep : ∀ s a, I s → S.Enabled s a → (P (S.next s a) ∧ D s a ↔ C s a))
    {s : σ} {as : List α} (hI : I s) (hv : S.Valid s as) :
    S.Always P s as ∧ S.Meets D s as ↔ S.Meets C s as := by
  induction as generalizing s with
  | nil => exact ⟨fun _ => trivial, fun _ => ⟨himp s hI, trivial⟩⟩
  | cons a as ih =>
    have key := hstep s a hI hv.1
    constructor
    · intro ⟨hP, hD⟩
      have hC : C s a := key.mp ⟨hP.2.head, hD.1⟩
      exact ⟨hC, (ih (hinv s a hI hv.1 hC) hv.2).mp ⟨hP.2, hD.2⟩⟩
    · intro h
      have htail := (ih (hinv s a hI hv.1 h.1) hv.2).mpr h.2
      exact ⟨⟨himp s hI, htail.1⟩, (key.mpr h.1).2, htail.2⟩

theorem meets_true (s : σ) (as : List α) : S.Meets (fun _ _ => True) s as := by
  induction as generalizing s with
  | nil => trivial
  | cons a as ih => exact ⟨trivial, ih _⟩

theorem always_true (s : σ) (as : List α) : S.Always (fun _ => True) s as := by
  induction as generalizing s with
  | nil => trivial
  | cons a as ih => exact ⟨trivial, ih _⟩

/-- `always_and_meets_iff` for a property of the steps alone. -/
theorem meets_iff_meets_inv {I : σ → Prop} {C D : σ → α → Prop}
    (hinv : ∀ s a, I s → S.Enabled s a → C s a → I (S.next s a))
    (hstep : ∀ s a, I s → S.Enabled s a → (D s a ↔ C s a))
    {s : σ} {as : List α} (hI : I s) (hv : S.Valid s as) :
    S.Meets D s as ↔ S.Meets C s as := by
  have h := always_and_meets_iff (P := fun _ => True) (D := D) (fun _ _ => trivial) hinv
    (fun s a h ha => by rw [true_and]; exact hstep s a h ha) hI hv
  rwa [and_iff_right (always_true s as)] at h

/-- `always_and_meets_iff` for a property of the states alone. -/
theorem always_iff_meets_inv {I P : σ → Prop} {C : σ → α → Prop}
    (himp : ∀ s, I s → P s)
    (hinv : ∀ s a, I s → S.Enabled s a → C s a → I (S.next s a))
    (hstep : ∀ s a, I s → S.Enabled s a → (P (S.next s a) ↔ C s a))
    {s : σ} {as : List α} (hI : I s) (hv : S.Valid s as) :
    S.Always P s as ↔ S.Meets C s as := by
  rw [← always_and_meets_iff (D := fun _ _ => True) himp hinv
    (fun s a h ha => by rw [and_iff_left trivial]; exact hstep s a h ha) hI hv]
  exact (and_iff_left (meets_true s as)).symm

end TransitionSystem
