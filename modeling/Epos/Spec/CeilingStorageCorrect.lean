import Epos.Kernel.CeilingStorage

/-!
# Whose storage ceilings are in

Of the public constructors only `Semaphore_SRP<true>(cpu, ceiling, value)` leaves a
semaphore with storage for its ceilings, namely the array that it is given, as long as
that array is given to nobody else. The others leave `_ceiling` indeterminate or let it
point to the levels of the caller.
-/

namespace Epos

/-- The array that `_ceiling` points to after the constructor. -/
def CeilingConstructor.array : CeilingConstructor → Option ArrayId
  | .srpCeilings a | .msrp a _ => some a
  | .ipcp _ | .pcp _ | .mpcp _ | .srp _ _ => none

/-- The constructor gets the array `a`, for its ceilings or as levels of its tasks. -/
def CeilingConstructor.Gets (ctor : CeilingConstructor) (a : ArrayId) : Prop :=
  ctor.array = some a ∨ ∃ n, ctor.levels = some (a, n)

namespace CeilingAction

/-- The semaphore that is operated on. -/
def target : CeilingAction → Sid
  | .construct s _ | .read s _ | .write s _ _ | .update s _ => s

end CeilingAction

namespace CeilingMemory

variable {m : CeilingMemory} {s s' : Sid} {a b : ArrayId} {cpu : Nat} {value : Int}

/-- `a` is an array of levels that the caller has passed. -/
def IsLevels (m : CeilingMemory) (a : ArrayId) : Prop :=
  ∃ s n, ∃ ctor ∈ m.built s, ctor.levels = some (a, n)

/-- The storage belongs to `s`: no other `_ceiling` points to it, and the caller has not
    passed it as levels. -/
def Belongs (m : CeilingMemory) (s : Sid) (a : ArrayId) : Prop :=
  (∀ s', s' ≠ s → m.ceiling s' ≠ some a) ∧ ¬m.IsLevels a

/-- The access goes to initialised storage of `s` with a cell for the index. -/
def Proper (m : CeilingMemory) (s : Sid) : CeilingAccess → Prop
  | .cell cpu => ∃ a, m.ceiling s = some a ∧ cpu < m.length a ∧ m.Belongs s a
  | .tasks => m.hasTasks s = true

/-- What an operation may do. -/
structure Sound (m : CeilingMemory) (act : CeilingAction) : Prop where
  proper : ∀ x ∈ m.accesses act, (m.step act).Proper act.target x
  returnsLast : ∀ s cpu, act = .read s cpu → m.read s cpu = some (m.last s cpu)
  others : ∀ s, s ≠ act.target → ∀ cpu, (m.step act).read s cpu = m.read s cpu
  levels : ∀ a, m.IsLevels a → (m.step act).cells a = m.cells a

/-- `s` was built with an array of its own for its ceilings, which has the index `cpu`. -/
def OwnsCell (m : CeilingMemory) (s : Sid) (cpu : Nat) : Prop :=
  ∃ a, m.built s = some (.srpCeilings a) ∧ cpu < m.length a ∧
    ∀ s', s' ≠ s → ∀ ctor ∈ m.built s', ¬ctor.Gets a

/-- Semaphores are only built by `Semaphore_SRP<true>(cpu, ceiling, value)` or as
    `Semaphore_MSRP`, only the former are accessed, with indices that their arrays have
    and arrays that no other constructor got, and `updateCeiling()` is not called. -/
def Disciplined (m : CeilingMemory) : CeilingAction → Prop
  | .construct _ ctor => ctor.array.isSome
  | .read s cpu | .write s _ cpu => m.OwnsCell s cpu
  | .update _ _ => False

/-- The pointers are those of the constructors, and a semaphore with storage of its own
    finds there what was written last. -/
structure Inv (m : CeilingMemory) : Prop where
  cpus_pos : 0 < m.cpus
  ceiling : ∀ s, m.ceiling s = (m.built s).bind CeilingConstructor.array
  hasTasks : ∀ s, m.hasTasks s = true ↔ ∃ ctor ∈ m.built s, ctor.levels.isSome
  last : ∀ s a, m.built s = some (.srpCeilings a) →
    (∀ s', s' ≠ s → ∀ ctor ∈ m.built s', ¬ctor.Gets a) → m.last s = m.cells a

/-- The invariant holds before anything is built. -/
theorem inv_init (hm : system.Init m) : m.Inv := by
  obtain ⟨hcpus, hceil, htasks, hbuilt⟩ := hm
  refine ⟨hcpus, fun s => ?_, fun s => ?_, fun s a hs => ?_⟩
  · rw [hceil, hbuilt]
    rfl
  · simp [htasks, hbuilt]
  · rw [hbuilt] at hs
    cases hs

/-- Storage belongs to the semaphore that was built with it if no other constructor got
    it. -/
theorem Inv.belongs_iff (h : m.Inv) (hs : m.built s = some (.srpCeilings a)) :
    m.Belongs s a ↔ ∀ s', s' ≠ s → ∀ ctor ∈ m.built s', ¬ctor.Gets a := by
  constructor
  · intro ⟨hptr, hlevels⟩ s' hne ctor hctor hgets
    rcases hgets with harr | ⟨n, hl⟩
    · refine hptr s' hne ?_
      rw [h.ceiling, show m.built s' = some ctor from hctor]
      exact harr
    · exact hlevels ⟨s', n, ctor, hctor, hl⟩
  · intro hno
    refine ⟨fun s' hne heq => ?_, fun ⟨s', n, ctor, hctor, hl⟩ => ?_⟩
    · rw [h.ceiling] at heq
      obtain ⟨ctor, hctor, harr⟩ := Option.bind_eq_some_iff.mp heq
      exact hno s' hne ctor hctor (.inl harr)
    · by_cases hne : s' = s
      · subst hne
        rw [hs] at hctor
        cases hctor
        cases hl
      · exact hno s' hne ctor hctor (.inr ⟨n, hl⟩)

/-- A cell is properly accessed exactly if its semaphore owns it. -/
theorem Inv.proper_cell_iff (h : m.Inv) : m.Proper s (.cell cpu) ↔ m.OwnsCell s cpu := by
  constructor
  · intro ⟨a, hptr, hlt, hbel⟩
    have hbuilt := hptr
    rw [h.ceiling] at hbuilt
    obtain ⟨ctor, hctor, harr⟩ := Option.bind_eq_some_iff.mp hbuilt
    cases ctor with
    | srpCeilings a' =>
      cases harr
      exact ⟨a, hctor, hlt, (h.belongs_iff hctor).mp hbel⟩
    | msrp a' n =>
      cases harr
      exact absurd ⟨s, n, _, hctor, rfl⟩ hbel.2
    | ipcp _ | pcp _ | mpcp _ | srp _ _ => cases harr
  · intro ⟨a, hbuilt, hlt, hno⟩
    refine ⟨a, ?_, hlt, (h.belongs_iff hbuilt).mpr hno⟩
    rw [h.ceiling, hbuilt]
    rfl

/-! ## Writes -/

/-- `m` and `m'` have the same arrays and the same objects. -/
def SameObjects (m m' : CeilingMemory) : Prop :=
  ∃ cells last, m' = { m with cells := cells, last := last }

/-- Writing a ceiling builds nothing. -/
theorem sameObjects_write (m : CeilingMemory) (s : Sid) (value : Int) (cpu : Nat) :
    SameObjects m (m.write s value cpu) := ⟨_, _, rfl⟩

/-- An update of the ceilings builds nothing. -/
theorem sameObjects_update (m : CeilingMemory) (s : Sid) (values : Nat → Int) :
    SameObjects m (m.update s values) := by
  unfold update
  generalize m.updated s = cpus
  induction cpus generalizing m with
  | nil => exact ⟨_, _, rfl⟩
  | cons cpu cpus ih =>
    obtain ⟨_, _, heq⟩ := ih (m.write s (values cpu) cpu)
    exact ⟨_, _, heq⟩

/-- What is proper only depends on what was built. -/
theorem SameObjects.proper_iff {m' : CeilingMemory} (h : SameObjects m m') (x : CeilingAccess) :
    m'.Proper s x ↔ m.Proper s x := by
  obtain ⟨_, _, rfl⟩ := h
  exact Iff.rfl

/-- A write changes one cell. -/
theorem write_cells (h : m.ceiling s = some a) :
    (m.write s value cpu).cells = Function.update m.cells a (Function.update (m.cells a) cpu value) := by
  simp only [write, h]

/-- A write to a cell of its own changes nothing that others use. -/
theorem write_cells_of_ne (h : m.ceiling s = some a) (hb : b ≠ a) :
    (m.write s value cpu).cells b = m.cells b := by
  rw [write_cells h, Function.update_of_ne hb]

/-- Who owns a cell has an array, and the cell in it. -/
theorem OwnsCell.ceiling_eq (h : m.Inv) (ho : m.OwnsCell s cpu) :
    ∃ a, m.ceiling s = some a ∧ m.built s = some (.srpCeilings a) ∧ m.Belongs s a := by
  obtain ⟨a, hbuilt, -, hno⟩ := ho
  refine ⟨a, ?_, hbuilt, (h.belongs_iff hbuilt).mpr hno⟩
  rw [h.ceiling, hbuilt]
  rfl

/-! ## Steps -/

/-- A constructor with an array. -/
theorem construct_of_array {ctor : CeilingConstructor} (ha : ctor.array = some a) :
    m.construct s ctor = (m.semaphoreCeilingArray s a).finish s ctor := by
  cases ctor with
  | srpCeilings _ | msrp _ _ =>
    cases ha
    rfl
  | ipcp _ | pcp _ | mpcp _ | srp _ _ => cases ha

/-- One without leaves the pointer null and reads it. -/
theorem construct_of_scalar {ctor : CeilingConstructor} (ha : ctor.array = none) :
    m.accesses (.construct s ctor) = [.cell 0] ∧ (m.construct s ctor).ceiling s = none := by
  cases ctor with
  | srpCeilings _ | msrp _ _ => cases ha
  | ipcp _ | pcp _ | mpcp _ | srp _ _ =>
    exact ⟨rfl, Function.update_self _ _ _⟩

/-- A constructor with an array keeps the invariant. -/
theorem Inv.construct (h : m.Inv) {ctor : CeilingConstructor} (hnew : m.built s = none)
    (ha : ctor.array = some a) : (m.construct s ctor).Inv := by
  rw [construct_of_array ha]
  constructor
  case cpus_pos => exact h.cpus_pos
  case ceiling =>
    intro s'
    show Function.update m.ceiling s (some a) s' =
      (Function.update m.built s (some ctor) s').bind CeilingConstructor.array
    by_cases hs : s' = s
    · rw [hs, Function.update_self, Function.update_self, Option.bind_some, ha]
    · rw [Function.update_of_ne hs, Function.update_of_ne hs]
      exact h.ceiling s'
  case hasTasks =>
    intro s'
    show Function.update m.hasTasks s ctor.levels.isSome s' = true ↔
      ∃ c ∈ Function.update m.built s (some ctor) s', c.levels.isSome
    by_cases hs : s' = s
    · rw [hs, Function.update_self, Function.update_self]
      simp
    · rw [Function.update_of_ne hs, Function.update_of_ne hs]
      exact h.hasTasks s'
  case last =>
    intro s' b hb hno
    change Function.update m.built s (some ctor) s' = _ at hb
    change ∀ s'', s'' ≠ s' → ∀ c ∈ Function.update m.built s (some ctor) s'', ¬c.Gets b at hno
    show Function.update m.last s (m.cells a) s' = m.cells b
    by_cases hs : s' = s
    · rw [hs, Function.update_self] at hb
      cases hb
      cases ha
      rw [hs, Function.update_self]
    · rw [Function.update_of_ne hs] at hb ⊢
      -- Who shared the array before does so still.
      refine h.last s' b hb fun s'' hne c hc => hno s'' hne c ?_
      have hold : s'' ≠ s := by
        rintro rfl
        rw [hnew] at hc
        cases hc
      rw [Function.update_of_ne hold]
      exact hc

/-- Writing an own cell keeps the invariant. -/
theorem Inv.write (h : m.Inv) (ho : m.OwnsCell s cpu) : (m.write s value cpu).Inv := by
  obtain ⟨a, hptr, hbuilt, -⟩ := ho.ceiling_eq h
  constructor
  case cpus_pos => exact h.cpus_pos
  case ceiling => exact h.ceiling
  case hasTasks => exact h.hasTasks
  case last =>
    intro s' b hb hno
    have hb' : m.built s' = some (.srpCeilings b) := hb
    show Function.update m.last s (Function.update (m.last s) cpu value) s' = _
    by_cases hs : s' = s
    · subst hs
      rw [hbuilt] at hb'
      cases hb'
      rw [write_cells hptr, Function.update_self, Function.update_self, h.last s' a hbuilt hno]
    · have hne : b ≠ a := by
        rintro rfl
        exact hno s (Ne.symm hs) _ hbuilt (.inl rfl)
      rw [Function.update_of_ne hs, write_cells_of_ne hptr hne]
      exact h.last s' b hb' hno

/-- Every disciplined step keeps the invariant. -/
theorem Inv.step (h : m.Inv) {act : CeilingAction} (ha : m.CanAct act)
    (hd : m.Disciplined act) : (m.step act).Inv := by
  cases act with
  | construct s ctor =>
    obtain ⟨a, harr⟩ := Option.isSome_iff_exists.mp (show ctor.array.isSome from hd)
    exact h.construct ha.1 harr
  | read s cpu => exact h
  | write s value cpu => exact h.write hd
  | update s values => exact hd.elim

/-- A sound step is disciplined. -/
theorem Inv.disciplined (h : m.Inv) {act : CeilingAction} (hs : m.Sound act) :
    m.Disciplined act := by
  cases act with
  | construct s ctor =>
    show ctor.array.isSome
    by_contra hnone
    obtain ⟨hacc, hptr⟩ := construct_of_scalar (m := m) (s := s)
      (Option.not_isSome_iff_eq_none.mp hnone)
    obtain ⟨a, heq, -⟩ := hs.proper (.cell 0) (by simp [hacc])
    cases heq.symm.trans hptr
  | read s cpu => exact h.proper_cell_iff.mp (hs.proper (.cell cpu) List.mem_cons_self)
  | write s value cpu =>
    refine h.proper_cell_iff.mp ?_
    exact ((sameObjects_write m s value cpu).proper_iff _).mp (hs.proper _ List.mem_cons_self)
  | update s values =>
    have hsame := sameObjects_update m s values
    have htasks : m.hasTasks s = true :=
      (hsame.proper_iff (s := s) .tasks).mp (hs.proper .tasks List.mem_cons_self)
    obtain ⟨cpu, hcpu⟩ : ∃ cpu, cpu ∈ m.updated s := by
      unfold updated
      split
      · exact ⟨0, List.mem_range.mpr h.cpus_pos⟩
      · exact ⟨0, List.mem_singleton_self 0⟩
    have hcell : m.Proper s (.cell cpu) :=
      (hsame.proper_iff _).mp (hs.proper _ (List.mem_cons_of_mem _ (List.mem_map_of_mem hcpu)))
    -- what has tasks has no ceilings of its own
    obtain ⟨a, hbuilt, -⟩ := h.proper_cell_iff.mp hcell
    obtain ⟨ctor, hctor, hlevels⟩ := (h.hasTasks s).mp htasks
    rw [hbuilt] at hctor
    cases hctor
    cases hlevels

/-- A disciplined step is sound. -/
theorem Inv.sound (h : m.Inv) {act : CeilingAction} (hd : m.Disciplined act) : m.Sound act := by
  cases act with
  | construct s ctor =>
    obtain ⟨a, harr⟩ := Option.isSome_iff_exists.mp (show ctor.array.isSome from hd)
    have hstep : m.step (.construct s ctor) = _ := construct_of_array harr
    refine ⟨fun x hx => ?_, fun _ _ heq => (by cases heq), fun s' hs' cpu => ?_, fun b _ => ?_⟩
    · -- A constructor that is given an array takes the address and accesses none of its cells.
      cases ctor with
      | srpCeilings _ | msrp _ _ => cases hx
      | ipcp _ | pcp _ | mpcp _ | srp _ _ => cases harr
    · rw [hstep]
      show (Function.update m.ceiling s (some a) s').map _ = _
      rw [Function.update_of_ne (show s' ≠ s from hs')]
      rfl
    · rw [hstep]
      rfl
  | read s cpu =>
    have ho : m.OwnsCell s cpu := hd
    refine ⟨fun x hx => ?_, fun s' cpu' heq => ?_, fun _ _ _ => rfl, fun _ _ => rfl⟩
    · rw [List.mem_singleton.mp hx]
      exact h.proper_cell_iff.mpr ho
    · cases heq
      obtain ⟨a, hptr, hbuilt, hbel⟩ := ho.ceiling_eq h
      rw [CeilingMemory.read, hptr, h.last s a hbuilt ((h.belongs_iff hbuilt).mp hbel)]
      rfl
  | write s value cpu =>
    have ho : m.OwnsCell s cpu := hd
    obtain ⟨a, hptr, hbuilt, hbel⟩ := ho.ceiling_eq h
    refine ⟨fun x hx => ?_, fun _ _ heq => (by cases heq), fun s' hs' cpu' => ?_, fun b hb => ?_⟩
    · rw [List.mem_singleton.mp hx]
      exact ((sameObjects_write m s value cpu).proper_iff _).mpr (h.proper_cell_iff.mpr ho)
    · show (m.ceiling s').map (fun b => (m.write s value cpu).cells b cpu') =
        (m.ceiling s').map fun b => m.cells b cpu'
      cases hp : m.ceiling s' with
      | none => rfl
      | some b =>
        -- The array belongs to `s` alone.
        have hne : b ≠ a := by
          rintro rfl
          exact hbel.1 s' hs' hp
        simp only [Option.map_some, write_cells_of_ne hptr hne]
    · have hne : b ≠ a := by
        rintro rfl
        exact hbel.2 hb
      exact write_cells_of_ne hptr hne
  | update s values => exact hd.elim

end CeilingMemory

open CeilingMemory

/-- For any constructors with any arguments, any number of CPUs and any later accesses:
    all of them are sound exactly if semaphores are built with an array for their
    ceilings, and only accessed where that array is theirs alone. -/
theorem sound_iff_disciplined {m : CeilingMemory} (hm : CeilingMemory.system.Init m)
    (as : List CeilingAction) (hv : CeilingMemory.system.Valid m as) :
    CeilingMemory.system.Meets Sound m as ↔ CeilingMemory.system.Meets Disciplined m as :=
  TransitionSystem.meets_iff_meets_inv (I := Inv) (fun _ _ h ha hd => h.step ha hd)
    (fun _ _ h _ => ⟨fun hs => h.disciplined hs, fun hd => h.sound hd⟩) (inv_init hm) hv

/-- Array 0 has four cells, the others two; two CPUs. -/
def storageExample : CeilingMemory where
  cpus := 2
  length a := if a = 0 then 4 else 2
  cells _ i := i + 1

/-- Nothing is built at the beginning. -/
theorem storageExample_init : CeilingMemory.system.Init storageExample :=
  ⟨by decide, fun _ => rfl, fun _ => rfl, fun _ => rfl⟩

/-- An SRP resource with ceilings of its own and an MSRP resource that is not used. -/
theorem sound_iff_disciplined_own :
    CeilingMemory.system.Meets Sound storageExample
      [.construct 0 (.srpCeilings 0), .construct 1 (.msrp 1 2), .write 0 7 3, .read 0 3] := by
  have hbuilt (s : Sid) (hs : s ≠ 0) : ∀ ctor ∈ (CeilingMemory.system.run storageExample
      [.construct 0 (.srpCeilings 0), .construct 1 (.msrp 1 2)]).built s, ¬ctor.Gets 0 := by
    intro ctor hctor
    change ctor ∈ Function.update (Function.update (fun _ => none) 0 _) 1 _ s at hctor
    by_cases hs1 : s = 1
    · rw [hs1, Function.update_self, Option.mem_some_iff] at hctor
      rw [← hctor]
      rintro (h | ⟨n, h⟩) <;> cases h
    · rw [Function.update_of_ne hs1, Function.update_of_ne hs] at hctor
      cases hctor
  refine (sound_iff_disciplined storageExample_init
      [.construct 0 (.srpCeilings 0), .construct 1 (.msrp 1 2), .write 0 7 3, .read 0 3]
      ⟨?_, ?_, ?_, ?_, trivial⟩).mpr
    ⟨rfl, rfl, ⟨0, rfl, by decide, hbuilt⟩, ⟨0, rfl, by decide, hbuilt⟩, trivial⟩
  · exact ⟨rfl, fun l hl => by cases hl⟩
  · exact ⟨rfl, fun l hl => by cases hl; decide⟩
  · exact Option.some_ne_none _
  · exact Option.some_ne_none _

/-- `Semaphore_IPCP(4)` writes its ceiling through an indeterminate pointer, and
    `updateCeiling()` of an MSRP resource overwrites the levels that it was built with. -/
theorem not_sound_of_construct :
    (CeilingMemory.system.Valid storageExample [.construct 0 (.ipcp 4), .read 0 0] ∧
        ¬CeilingMemory.system.Meets Sound storageExample
          [.construct 0 (.ipcp 4), .read 0 0]) ∧
      CeilingMemory.system.Valid storageExample
          [.construct 0 (.msrp 1 2), .update 0 fun _ => defaultCeiling] ∧
        ¬CeilingMemory.system.Meets Sound storageExample
          [.construct 0 (.msrp 1 2), .update 0 fun _ => defaultCeiling] := by
  refine ⟨⟨⟨?_, ?_, trivial⟩, fun h => ?_⟩, ⟨?_, ?_, trivial⟩, fun h => ?_⟩
  · exact ⟨rfl, fun l hl => by cases hl⟩
  · exact Option.some_ne_none _
  · obtain ⟨a, hptr, -⟩ := h.2.1.proper (.cell 0) (by decide)
    cases hptr
  · exact ⟨rfl, fun l hl => by cases hl; decide⟩
  · exact ⟨_, rfl, rfl⟩
  · have hlevels := h.2.1.levels 1 ⟨0, 2, _, rfl, rfl⟩
    exact absurd (congrFun hlevels 0) (by decide)

end Epos
