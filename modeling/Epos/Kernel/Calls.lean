import Epos.ForStd.TransitionSystem
import Epos.Kernel.Synchronizer

/-!
# Threads calling `p()` and `v()`

Any number of threads call `p()` and `v()` in any order, each body being one
atomic step up to its `sleep()` or `wakeup()`. A `p()` that sleeps returns in a
step of its own, once the thread has been taken off the queue and some core has
switched to it; which thread moves next is left open.
-/

namespace Epos

/-- The synchronizers together with where each thread is: `inside t` are the
    semaphores of the `p()`s that `t` has completed without a `v()` yet, latest
    first, and `pending t` the semaphore of the `p()` that `t` is sleeping in. -/
structure Calls extends Sync where
  inside : Tid → List Sid
  pending : Tid → Option Sid

inductive CallAction where
  | p (t : Tid) (s : Sid)
  | v (t : Tid) (s : Sid)
  | ret (t : Tid)
  deriving DecidableEq, Repr

namespace Calls

/-- `t` has been woken up in its `p()` on `s`, which has not returned yet. -/
def Woken (c : Calls) (t : Tid) (s : Sid) : Prop :=
  c.pending t = some s ∧ t ∉ (c.sem s).queue

def step (c : Calls) : CallAction → Calls
  | .p t s =>
    let (σ, sleeps) := c.toSync.p s t
    -- the thread sleeps in `p()` and is inside only when the call returns
    if sleeps then { c with toSync := σ, pending := Function.update c.pending t (some s) }
    else { c with toSync := σ, inside := Function.update c.inside t (s :: c.inside t) }
  | .v t s =>
    { c with
      toSync := (c.toSync.v s t).1
      inside := Function.update c.inside t ((c.inside t).erase s) }
  | .ret t =>
    match c.pending t with
    | none => c
    | some s =>
      { c with
        pending := Function.update c.pending t none
        inside := Function.update c.inside t (s :: c.inside t) }

/-- A thread calls when it is not inside a `p()`, and `v()` is called by the
    holder only. -/
def CanCall (c : Calls) : CallAction → Prop
  | .p t _ => c.pending t = none
  | .v t s => c.pending t = none ∧ s ∈ c.inside t
  | .ret t => ∃ s, c.Woken t s

/-- A thread releases what it acquired last. -/
def Lifo (c : Calls) : CallAction → Prop
  | .v t s => (c.inside t).head? = some s
  | .p _ _ | .ret _ => True

/-- Critical sections are well bracketed: a thread releases what it acquired last
    and does not lock a semaphore that it holds. -/
def Nested (c : Calls) : CallAction → Prop
  | .p t s => s ∉ c.inside t
  | .v t s => (c.inside t).head? = some s
  | .ret _ => True

/-- Nothing is held and nobody waits: every semaphore is as its constructor left
    it, with the value 1. -/
structure Initial (c : Calls) : Prop where
  value : ∀ s, (c.sem s).value = 1
  queue : ∀ s, (c.sem s).queue = []
  owner : ∀ s, (c.sem s).owner = none
  inside : ∀ t, c.inside t = []
  pending : ∀ t, c.pending t = none

/-- Threads of the given priorities and new semaphores of the given classes and
    ceilings, each with a ceiling array of its own. -/
def start (priority : Tid → Int) (protocol : Sid → Protocol) (ceiling : Sid → Int) : Calls where
  priority := priority
  sem s := { protocol := protocol s, ceilings := s }
  store s _ := ceiling s
  inside _ := []
  pending _ := none

theorem start_initial (priority : Tid → Int) (protocol : Sid → Protocol) (ceiling : Sid → Int) :
    (start priority protocol ceiling).Initial := by
  constructor <;> intro <;> rfl

instance (c : Calls) (a : CallAction) : Decidable (c.CanCall a) :=
  match a with
  | .p t _ => inferInstanceAs (Decidable (c.pending t = none))
  | .v t s => inferInstanceAs (Decidable (c.pending t = none ∧ s ∈ c.inside t))
  | .ret t =>
    match h : c.pending t with
    | none => isFalse fun ⟨_, hs, _⟩ => by rw [h] at hs; cases hs
    | some s =>
      if hq : t ∈ (c.sem s).queue then
        isFalse fun ⟨_, hs, hn⟩ => by rw [h] at hs; cases hs; exact hn hq
      else isTrue ⟨s, h, hq⟩

instance (c : Calls) (a : CallAction) : Decidable (c.Lifo a) :=
  match a with
  | .v t s => inferInstanceAs (Decidable ((c.inside t).head? = some s))
  | .p _ _ | .ret _ => isTrue trivial

instance (c : Calls) (a : CallAction) : Decidable (c.Nested a) :=
  match a with
  | .p t s => inferInstanceAs (Decidable (s ∉ c.inside t))
  | .v t s => inferInstanceAs (Decidable ((c.inside t).head? = some s))
  | .ret _ => isTrue trivial

end Calls

/-- Calls on semaphores with an owner, of any mix of classes. -/
def ownedCalls : TransitionSystem Calls CallAction where
  Init c := c.Initial ∧ ∀ s, (c.sem s).protocol.owned
  Enabled c a := c.CanCall a
  next := Calls.step

instance (c : Calls) (a : CallAction) : Decidable (ownedCalls.Enabled c a) :=
  inferInstanceAs (Decidable (c.CanCall a))

end Epos
