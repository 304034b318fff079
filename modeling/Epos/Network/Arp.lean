import Mathlib.Algebra.Group.Pi.Basic
import Mathlib.Data.Fintype.Basic
import Mathlib.Logic.Function.Basic
import Epos.ForStd.TransitionSystem
import Epos.Kernel.Synchronizer

/-!
# ARP

`ARP::resolve` as the steps of the threads that call it, with the replies and the alarms
that come in between. `lock()` makes a step of what it encloses, but for a reply that
changes a mapping: it writes the address byte by byte, and the threads read it byte by
byte without the lock. The semaphore of a call is on the stack of its thread.

Which of several mappings for an address `search_key` finds depends on their places in the
table, and is left open. `remove()` and the destructor are not called.
-/

namespace Epos

namespace ARP

/-- A `Mapping *`. -/
abbrev Mid := Nat

/-- An `Address<LENGTH>`: so many bytes. -/
abbrev HA (len : Nat) (β : Type*) := Fin len → β

/-- `sem` is the thread whose semaphore `_sem` points to. -/
structure Mapping (PA : Type*) (len : Nat) (β : Type*) where
  pa : PA
  ha : HA len β
  sem : Option Tid

/-- Where a thread is in `resolve(pa)`. -/
inductive ResolvePoint (PA : Type*) (len : Nat) (β : Type*) where
  | out
  /-- Before the search. -/
  | search (pa : PA)
  /-- The search has found the mapping `m`, and `k` bytes of its address are in `ha`. -/
  | found (pa : PA) (m : Mid) (k : Nat) (ha : HA len β)
  /-- The search has found nothing. -/
  | absent (pa : PA)
  /-- At the condition of the loop, with the local `ha`. -/
  | loop (pa : PA) (m : Mid) (i : Nat) (ha : HA len β)
  /-- The request has been sent and the alarm set; in `sem.p()`. -/
  | waiting (pa : PA) (m : Mid) (i : Nat)
  /-- Behind `sem.p()`, with `k` bytes of the address in `ha`. -/
  | woken (pa : PA) (m : Mid) (i k : Nat) (ha : HA len β)

/-- `mapping m` is `none` before `new` and after `delete`; `alarm t` says that the alarm of
    `t` has not gone off. `writing` is the mapping that a reply writes to with the lock, the
    address and how many bytes of it are there, and `clearing` are the mappings whose
    `_sem` is to be set to 0. For the call in progress, `requests` and `timeouts` count the
    requests and the alarms that have gone off, and `replied` says that a reply has come;
    `learned` are the addresses that have been received or inserted. -/
structure Resolver (PA : Type*) (len : Nat) (β : Type*) where
  retries : Nat
  mapping : Mid → Option (Mapping PA len β)
  table : List Mid
  point : Tid → ResolvePoint PA len β := fun _ => .out
  sem : Tid → Nat := fun _ => 0
  alarm : Tid → Bool := fun _ => false
  writing : Option (Mid × HA len β × Nat) := none
  clearing : List Mid := []
  requests : Tid → Nat := fun _ => 0
  timeouts : Tid → Nat := fun _ => 0
  replied : Tid → Bool := fun _ => false
  learned : List (PA × HA len β) := []

/-- `garbage` is what is read from a mapping that has been deleted, `el` what `search_key`
    returns and `m` what `new` returns. -/
inductive ResolveAction (PA : Type*) (len : Nat) (β : Type*) where
  | call (t : Tid) (pa : PA)
  | search (t : Tid) (el : Option Mid)
  /-- One byte of `ha = map->ha()`. -/
  | copy (t : Tid) (garbage : β)
  | read (t : Tid)
  | insert (t : Tid) (m : Mid)
  | request (t : Tid)
  | alarm (t : Tid)
  | pass (t : Tid)
  | look (t : Tid)
  | finish (t : Tid)
  | reply (pa : PA) (ha : HA len β) (el : Option Mid)
  /-- One byte of `_ha = ha`. -/
  | write
  /-- `_sem->v()`, if there is a semaphore. -/
  | wake
  /-- `_sem = 0`. -/
  | clear (m : Mid)
  | enter (pa : PA) (ha : HA len β) (m : Mid)

namespace ResolvePoint

variable {PA β : Type*} {len : Nat}

/-- The address that a call in progress is for. -/
def address? : ResolvePoint PA len β → Option PA
  | .out => none
  | .search pa | .found pa _ _ _ | .absent pa | .loop pa _ _ _ | .waiting pa _ _
  | .woken pa _ _ _ _ => some pa

/-- The mapping whose address a call copies, and how many bytes it has. -/
def copying? : ResolvePoint PA len β → Option (Mid × Nat)
  | .found _ m k _ | .woken _ m _ k _ => some (m, k)
  | _ => none

end ResolvePoint

namespace Resolver

variable {PA β : Type*} {len : Nat} (s : Resolver PA len β)

def setPoint (t : Tid) (p : ResolvePoint PA len β) : Resolver PA len β :=
  { s with point := Function.update s.point t p }

/-- A byte of `map->ha()`. -/
def byte (m : Mid) (k : Fin len) (garbage : β) : β :=
  ((s.mapping m).map fun μ => μ.ha k).getD garbage

/-- The byte `k` of `ha = map->ha()`. -/
def copyByte (m : Mid) (k : Nat) (ha : HA len β) (garbage : β) : HA len β :=
  if h : k < len then Function.update ha ⟨k, h⟩ (s.byte m ⟨k, h⟩ garbage) else ha

/-- `new Mapping(...)` and `_table.insert(map->link())`. -/
def insert (m : Mid) (μ : Mapping PA len β) : Resolver PA len β :=
  { s with mapping := Function.update s.mapping m (some μ), table := m :: s.table }

def modify (m : Mid) (f : Mapping PA len β → Mapping PA len β) : Resolver PA len β :=
  { s with mapping := Function.update s.mapping m ((s.mapping m).map f) }

/-- `_table.remove(map->link())` and `delete map`. -/
def delete (m : Mid) : Resolver PA len β :=
  { s with mapping := Function.update s.mapping m none, table := s.table.erase m }

variable [DecidableEq PA] [DecidableEq β] [Zero β]

/-- The value of `ha` when it is `NULL` is 0. -/
def step (s : Resolver PA len β) : ResolveAction PA len β → Resolver PA len β
  | .call t pa =>
    { s.setPoint t (.search pa) with
      requests := Function.update s.requests t 0
      timeouts := Function.update s.timeouts t 0
      replied := Function.update s.replied t false }
  | .search t el =>
    match s.point t with
    | .search pa =>
      match el with
      | some m => s.setPoint t (.found pa m 0 0)
      | none => s.setPoint t (.absent pa)
    | _ => s
  | .copy t garbage =>
    match s.point t with
    | .found pa m k ha => s.setPoint t (.found pa m (k + 1) (s.copyByte m k ha garbage))
    | .woken pa m i k ha => s.setPoint t (.woken pa m i (k + 1) (s.copyByte m k ha garbage))
    | _ => s
  | .read t => s.setPoint t .out
  | .insert t m =>
    match s.point t with
    | .absent pa =>
      { (s.insert m ⟨pa, 0, some t⟩).setPoint t (.loop pa m 0 0) with
        sem := Function.update s.sem t 0
        alarm := Function.update s.alarm t false }
    | _ => s
  | .request t =>
    match s.point t with
    | .loop pa m i _ =>
      { s.setPoint t (.waiting pa m i) with
        alarm := Function.update s.alarm t true
        requests := Function.update s.requests t (s.requests t + 1) }
    | _ => s
  -- The handler calls `v()` like a reply does, so that behind `p()` both look the same.
  | .alarm t =>
    { s with
      alarm := Function.update s.alarm t false
      sem := Function.update s.sem t (s.sem t + 1)
      timeouts := Function.update s.timeouts t (s.timeouts t + 1) }
  | .pass t =>
    match s.point t with
    | .waiting pa m i =>
      { s.setPoint t (.woken pa m i 0 0) with sem := Function.update s.sem t (s.sem t - 1) }
    | _ => s
  | .look t =>
    match s.point t with
    | .woken pa m i _ ha =>
      { s.setPoint t (.loop pa m (i + 1) ha) with alarm := Function.update s.alarm t false }
    | _ => s
  -- The mapping stays in the table if the address is known now.
  | .finish t =>
    match s.point t with
    | .loop _ m _ ha => (if ha = 0 then s.delete m else s).setPoint t .out
    | _ => s
  | .reply pa ha el =>
    { s with
      writing := el.map fun m => (m, ha, 0)
      replied := fun t => s.replied t || decide ((s.point t).address? = some pa)
      learned := (pa, ha) :: s.learned }
  | .write =>
    match s.writing with
    | some (m, ha, k) =>
      if h : k < len then
        { s.modify m fun μ => { μ with ha := Function.update μ.ha ⟨k, h⟩ (ha ⟨k, h⟩) } with
          writing := some (m, ha, k + 1) }
      else s
    | none => s
  | .wake =>
    match s.writing with
    | some (m, _, _) =>
      match (s.mapping m).bind Mapping.sem with
      -- `v()` enables the interrupts again, so that on a single CPU anything may happen now.
      | some t =>
        { s with
          sem := Function.update s.sem t (s.sem t + 1)
          writing := none
          clearing := m :: s.clearing }
      | none => { s with writing := none }
    | none => s
  | .clear m =>
    { s.modify m fun μ => { μ with sem := none } with clearing := s.clearing.erase m }
  | .enter pa ha m => { s.insert m ⟨pa, ha, none⟩ with learned := (pa, ha) :: s.learned }

omit [DecidableEq PA] [DecidableEq β] [Zero β] in
/-- What `search_key(pa)` may return. -/
def Finds (pa : PA) : Option Mid → Prop
  | some m => m ∈ s.table ∧ ∃ μ, s.mapping m = some μ ∧ μ.pa = pa
  | none => ∀ m ∈ s.table, ∀ μ, s.mapping m = some μ → μ.pa ≠ pa

omit [DecidableEq PA] [DecidableEq β] in
/-- Where each step is taken, and that `new` returns memory that is not in use. What locks
    waits for a reply that writes. -/
def CanAct : ResolveAction PA len β → Prop
  | .call t _ => s.point t = .out
  | .search t el => (∃ pa, s.point t = .search pa ∧ s.Finds pa el) ∧ s.writing = none
  | .copy t _ => ∃ m k, (s.point t).copying? = some (m, k) ∧ k < len
  | .read t => ∃ pa m ha, s.point t = .found pa m len ha
  | .insert t m => (∃ pa, s.point t = .absent pa) ∧ s.mapping m = none ∧ s.writing = none
  | .request t => ∃ pa m i, s.point t = .loop pa m i 0 ∧ i < s.retries
  | .alarm t => s.alarm t = true
  | .pass t => (∃ pa m i, s.point t = .waiting pa m i) ∧ 0 < s.sem t
  | .look t => ∃ pa m i ha, s.point t = .woken pa m i len ha
  | .finish t =>
    (∃ pa m i ha, s.point t = .loop pa m i ha ∧ ¬(i < s.retries ∧ ha = 0)) ∧ s.writing = none
  | .reply pa _ el => s.Finds pa el ∧ s.writing = none
  | .write => ∃ m ha k, s.writing = some (m, ha, k) ∧ k < len
  | .wake => ∃ m ha, s.writing = some (m, ha, len)
  | .clear m => m ∈ s.clearing
  | .enter _ _ m => s.mapping m = none ∧ s.writing = none

end Resolver

/-- Calls of `resolve()` by any threads, replies and alarms, from the empty table on. -/
def resolving (PA : Type*) (len : Nat) (β : Type*) [DecidableEq PA] [DecidableEq β] [Zero β] :
    TransitionSystem (Resolver PA len β) (ResolveAction PA len β) where
  Init s := ∃ retries, s = { retries := retries, mapping := fun _ => none, table := [] }
  Enabled s a := s.CanAct a
  next s a := s.step a

end ARP

end Epos
