import Epos.ForStd.TransitionSystem
import Epos.Kernel.Thread

/-!
# The registries of SRP and MSRP resources

`Semaphore_SRP` and `Semaphore_MSRP` keep their objects in static arrays with a
counter. Each instantiation of the template `Semaphore_SRP` has a pair of its own, and
`Semaphore_MSRP` has a third one beside that of its base `Semaphore_SRP<false>`. The
constructors and destructors are given here with the indices that they use. Where
`_ceiling` points is in `Epos.Kernel.CeilingStorage`.
-/

namespace Epos

/-- `MAX_RESOURCES`. -/
def maxResources : Nat := 8

/-- `MAX_TASKS`. -/
def maxTasks : Nat := 20

/-- An array of resources and its counter: `_resources` with `_nr`, or
    `_globalResources` with `_nGR`. A null pointer is `none`, and an index outside
    of the array is some other memory. -/
structure Registry where
  slot : Int → Option Sid := fun _ => none
  count : Int := 0

namespace Registry

/-- `_resources[_nr] = this; _nr++`. -/
def register (r : Registry) (s : Sid) : Registry where
  slot := Function.update r.slot r.count (some s)
  count := r.count + 1

/-- `_resources[--_nr] = 0`. -/
def unregister (r : Registry) : Registry where
  slot := Function.update r.slot (r.count - 1) none
  count := r.count - 1

/-- The indices that the loop of `updateSystemCeiling` reads. -/
def scanned (r : Registry) : List Int :=
  if r.count = 0 then [] else 0 :: (List.range (r.count - 1).toNat).map fun i : Nat => (1 + i : Int)

/-- What `updateSystemCeiling` computes, for resources with the ceilings `ceiling`.
    It is undefined when a null pointer is followed. -/
def systemCeiling (r : Registry) (ceiling : Sid → Int) : Option Int :=
  match r.scanned with
  | [] => some defaultCeiling
  | i :: is => do
    let first ← r.slot i
    is.foldlM (fun m i => do
      let s ← r.slot i
      pure (if m < ceiling s then ceiling s else m)) (ceiling first)

end Registry

/-- The arrays that are indexed. `tasks` is the `_tasks` of the object at work. -/
inductive ResourceArray where
  | tasks
  | resources
  | baseResources
  | globalResources
  | systemCeiling
  deriving DecidableEq, Repr

/-- The registries and, in the order of their construction, the live
    `Semaphore_SRP<true>` and `Semaphore_MSRP` objects. `baseResources` belongs to
    `Semaphore_SRP<false>`. -/
structure Registries where
  cpus : Nat
  resources : Registry := {}
  baseResources : Registry := {}
  globalResources : Registry := {}
  srp : List Sid := []
  msrp : List Sid := []

/-- `constructSrp` is `Semaphore_SRP<true>(tasks, levels, n_tasks, value)`, and
    `constructSrpCeilings` is `Semaphore_SRP<true>(cpu, ceiling, value)`. -/
inductive RegistryAction where
  | constructSrp (s : Sid) (nTasks : Int)
  | constructSrpCeilings (s : Sid)
  | destroySrp (s : Sid)
  | updateSrp
  | constructMsrp (s : Sid) (nTasks : Int)
  | destroyMsrp (s : Sid)
  | updateMsrp
  deriving DecidableEq, Repr

namespace Registries

def size (g : Registries) : ResourceArray → Nat
  | .tasks => maxTasks
  | .resources | .baseResources | .globalResources => maxResources
  | .systemCeiling => g.cpus

def step (g : Registries) : RegistryAction → Registries
  | .constructSrp s _ => { g with resources := g.resources.register s, srp := g.srp ++ [s] }
  | .constructSrpCeilings s => { g with srp := g.srp ++ [s] }
  | .destroySrp s => { g with resources := g.resources.unregister, srp := g.srp.erase s }
  | .constructMsrp s _ =>
    { g with globalResources := g.globalResources.register s, msrp := g.msrp ++ [s] }
  | .destroyMsrp s =>
    -- `~Semaphore_MSRP` and then the destructor of its base, which never registered it
    { g with
      globalResources := g.globalResources.unregister
      baseResources := g.baseResources.unregister
      msrp := g.msrp.erase s }
  | .updateSrp | .updateMsrp => g

/-- The loop over `tasks` in a constructor. -/
def storeTasks (nTasks : Int) : List (ResourceArray × Int) :=
  (List.range nTasks.toNat).map fun i : Nat => (.tasks, (i : Int))

/-- The indices that an operation uses, with their arrays. -/
def uses (g : Registries) : RegistryAction → List (ResourceArray × Int)
  | .constructSrp _ nTasks => storeTasks nTasks ++ [(.resources, g.resources.count)]
  | .constructSrpCeilings _ => []
  | .destroySrp _ => [(.resources, g.resources.count - 1)]
  | .updateSrp => g.resources.scanned.map fun i => (.resources, i)
  | .constructMsrp _ nTasks =>
    storeTasks nTasks ++ [(.globalResources, g.globalResources.count)]
  | .destroyMsrp _ =>
    [(.globalResources, g.globalResources.count - 1),
      (.baseResources, g.baseResources.count - 1)]
  | .updateMsrp =>
    -- without resources the loop over the cores returns in its first round
    (List.range (if g.globalResources.count = 0 then min 1 g.cpus else g.cpus)).flatMap
      fun k : Nat => (.systemCeiling, (k : Int)) ::
        g.globalResources.scanned.map fun i => (.globalResources, i)

/-- An object is constructed where none lives, with at most `MAX_RESOURCES` of its
    kind, and what is destroyed is alive. -/
def CanAct (g : Registries) : RegistryAction → Prop
  | .constructSrp s _ | .constructSrpCeilings s =>
    s ∉ g.srp ∧ s ∉ g.msrp ∧ g.srp.length < maxResources
  | .constructMsrp s _ => s ∉ g.srp ∧ s ∉ g.msrp ∧ g.msrp.length < maxResources
  | .destroySrp s => s ∈ g.srp
  | .destroyMsrp s => s ∈ g.msrp
  | .updateSrp => g.srp ≠ []
  | .updateMsrp => g.msrp ≠ []

instance (g : Registries) (a : RegistryAction) : Decidable (g.CanAct a) :=
  match a with
  | .constructSrp s _ | .constructSrpCeilings s =>
    inferInstanceAs (Decidable (s ∉ g.srp ∧ s ∉ g.msrp ∧ g.srp.length < maxResources))
  | .constructMsrp s _ =>
    inferInstanceAs (Decidable (s ∉ g.srp ∧ s ∉ g.msrp ∧ g.msrp.length < maxResources))
  | .destroySrp s => inferInstanceAs (Decidable (s ∈ g.srp))
  | .destroyMsrp s => inferInstanceAs (Decidable (s ∈ g.msrp))
  | .updateSrp => inferInstanceAs (Decidable (g.srp ≠ []))
  | .updateMsrp => inferInstanceAs (Decidable (g.msrp ≠ []))

end Registries

/-- Any order of constructing and destroying resources, with updates in between. -/
def Registries.system (cpus : Nat) : TransitionSystem Registries RegistryAction where
  Init g := g = { cpus := cpus }
  Enabled g a := g.CanAct a
  next := Registries.step

instance (cpus : Nat) (g : Registries) (a : RegistryAction) :
    Decidable ((Registries.system cpus).Enabled g a) :=
  inferInstanceAs (Decidable (g.CanAct a))

end Epos
