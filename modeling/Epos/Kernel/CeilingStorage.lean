import Epos.Kernel.Registry

/-!
# Where ceilings are kept

The constructors of the semaphores with ceilings, and the accesses through their
pointer `_ceiling`. `Semaphore_Ceiling(ceiling, value)` writes `_ceiling[0]` and
initialises the pointer nowhere; `Semaphore_Ceiling(cpu, ceiling, value)` takes over
a pointer that the caller passes, which `Semaphore_MSRP` does with the levels of its
tasks.
-/

namespace Epos

/-- An array of the application. -/
abbrev ArrayId := Nat

/-- A public constructor with the arguments that matter to the ceilings.
    `srpCeilings` is `Semaphore_SRP<true>(cpu, ceiling, value)`. -/
inductive CeilingConstructor where
  | ipcp (ceiling : Int)
  | pcp (ceiling : Int)
  | mpcp (ceiling : Int)
  | srp (levels : ArrayId) (nTasks : Nat)
  | srpCeilings (ceiling : ArrayId)
  | msrp (levels : ArrayId) (nTasks : Nat)
  deriving DecidableEq, Repr

namespace CeilingConstructor

/-- The levels of the tasks that the caller passes. -/
def levels : CeilingConstructor → Option (ArrayId × Nat)
  | .srp levels nTasks | .msrp levels nTasks => some (levels, nTasks)
  | .ipcp _ | .pcp _ | .mpcp _ | .srpCeilings _ => none

/-- The constructors of the classes with an `updateCeiling`. -/
def dynamic : CeilingConstructor → Bool
  | .srp _ _ | .srpCeilings _ | .msrp _ _ => true
  | .ipcp _ | .pcp _ | .mpcp _ => false

end CeilingConstructor

/-- The arrays of the application, with their lengths and contents, and the objects.
    `ceiling` is the pointer `_ceiling`, `none` while it is indeterminate, `hasTasks`
    tells whether `_tasks` and `_nt` have been set, `built` is the constructor of a live
    object and `last` the last value that was written for an index. -/
structure CeilingMemory where
  cpus : Nat
  length : ArrayId → Nat
  cells : ArrayId → Nat → Int
  ceiling : Sid → Option ArrayId := fun _ => none
  hasTasks : Sid → Bool := fun _ => false
  built : Sid → Option CeilingConstructor := fun _ => none
  last : Sid → Nat → Int := fun _ _ => 0

/-- `update s values` is `updateCeiling()` with the largest levels that it computes for
    each core; its `updateSystemCeiling()` is a row of reads. -/
inductive CeilingAction where
  | construct (s : Sid) (ctor : CeilingConstructor)
  | read (s : Sid) (cpu : Nat)
  | write (s : Sid) (value : Int) (cpu : Nat)
  | update (s : Sid) (values : Nat → Int)

/-- A part of an object that an operation uses: what `_ceiling[cpu]` designates, or
    `_tasks` with `_nt`. -/
inductive CeilingAccess where
  | cell (cpu : Nat)
  | tasks
  deriving DecidableEq, Repr

namespace CeilingMemory

/-- `Semaphore_Ceiling::ceiling(cpu)`, which is undefined while the pointer is. -/
def read (m : CeilingMemory) (s : Sid) (cpu : Nat) : Option Int :=
  (m.ceiling s).map fun a => m.cells a cpu

/-- `Semaphore_Ceiling::ceiling(ceiling, cpu)`. Nothing is known about what a write
    through an indeterminate pointer hits. -/
def write (m : CeilingMemory) (s : Sid) (value : Int) (cpu : Nat) : CeilingMemory :=
  { m with
    cells :=
      match m.ceiling s with
      | some a => Function.update m.cells a (Function.update (m.cells a) cpu value)
      | none => m.cells
    last := Function.update m.last s (Function.update (m.last s) cpu value) }

/-- `Semaphore_Ceiling(ceiling, value)`. -/
def semaphoreCeilingScalar (m : CeilingMemory) (s : Sid) (ceiling : Int) : CeilingMemory :=
  write { m with ceiling := Function.update m.ceiling s none } s ceiling 0

/-- `Semaphore_Ceiling(cpu, ceiling, value)`. -/
def semaphoreCeilingArray (m : CeilingMemory) (s : Sid) (ceiling : ArrayId) : CeilingMemory :=
  { m with
    ceiling := Function.update m.ceiling s (some ceiling)
    last := Function.update m.last s (m.cells ceiling) }

/-- The rest of a constructor: whether it stores tasks. -/
def finish (m : CeilingMemory) (s : Sid) (ctor : CeilingConstructor) : CeilingMemory :=
  { m with
    hasTasks := Function.update m.hasTasks s ctor.levels.isSome
    built := Function.update m.built s (some ctor) }

def construct (m : CeilingMemory) (s : Sid) (ctor : CeilingConstructor) : CeilingMemory :=
  match ctor with
  | .ipcp ceiling | .pcp ceiling | .mpcp ceiling => (m.semaphoreCeilingScalar s ceiling).finish s ctor
  | .srp _ _ =>
    -- `Dynamic_Ceiling<T, true>(0, value)` has two arguments
    (m.semaphoreCeilingScalar s 0).finish s ctor
  | .srpCeilings ceiling => (m.semaphoreCeilingArray s ceiling).finish s ctor
  | .msrp levels _ => (m.semaphoreCeilingArray s levels).finish s ctor

/-- The indices that `updateCeiling` writes: one for each core in `Semaphore_MSRP`. -/
def updated (m : CeilingMemory) (s : Sid) : List Nat :=
  match m.built s with
  | some (.msrp _ _) => List.range m.cpus
  | _ => [0]

/-- `updateCeiling`. -/
def update (m : CeilingMemory) (s : Sid) (values : Nat → Int) : CeilingMemory :=
  (m.updated s).foldl (fun m cpu => m.write s (values cpu) cpu) m

def step (m : CeilingMemory) : CeilingAction → CeilingMemory
  | .construct s ctor => m.construct s ctor
  | .read _ _ => m
  | .write s value cpu => m.write s value cpu
  | .update s values => m.update s values

/-- What an operation uses of its object. -/
def accesses (m : CeilingMemory) : CeilingAction → List CeilingAccess
  | .construct _ ctor =>
    match ctor with
    | .ipcp _ | .pcp _ | .mpcp _ | .srp _ _ => [.cell 0]
    | .srpCeilings _ | .msrp _ _ => []
  | .read _ cpu | .write _ _ cpu => [.cell cpu]
  | .update s _ => .tasks :: (m.updated s).map .cell

/-- An object is constructed once, with as many levels as tasks, and used after that. -/
def CanAct (m : CeilingMemory) : CeilingAction → Prop
  | .construct s ctor =>
    m.built s = none ∧ ∀ l ∈ ctor.levels, l.2 ≤ maxTasks ∧ l.2 ≤ m.length l.1
  | .read s _ | .write s _ _ => m.built s ≠ none
  | .update s _ => ∃ ctor ∈ m.built s, ctor.dynamic

/-- Any sequence of constructions and accesses, with any arrays and any number of CPUs. -/
def system : TransitionSystem CeilingMemory CeilingAction where
  Init m := 0 < m.cpus ∧ (∀ s, m.ceiling s = none) ∧ (∀ s, m.hasTasks s = false) ∧
    ∀ s, m.built s = none
  Enabled := CanAct
  next := step

end CeilingMemory

end Epos
