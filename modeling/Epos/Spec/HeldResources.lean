import Epos.Spec.WellFormed

/-!
# Acquiring and releasing a resource

A `p()` that finds its resource free and the `v()` that gives it back change one
semaphore, end the call of the running thread and change what that thread holds.
`Turn` says so once for the ceiling protocols: from it follows what is left alone,
and who holds what afterwards.
-/

namespace Epos

namespace Kernel

variable {k k' : Kernel} {s x : Sid} {t u : Tid} {m : Semaphore} {l : List Sid}

/-- From `k` to `k'` the thread `t` acquires or releases `s`, which nobody else holds:
    the semaphore becomes `m` and `l` is what `t` holds then. -/
structure Turn (k k' : Kernel) (t : Tid) (s : Sid) (m : Semaphore) (l : List Sid) : Prop where
  sem : k'.sem = Function.update k.sem s m
  call : k'.call = Function.update k.call t none
  inside : k'.inside = Function.update k.inside t l
  state : k'.state = k.state
  running : k'.running = k.running
  protocol : m.protocol = (k.sem s).protocol
  ceilings : m.ceilings = (k.sem s).ceilings
  others : ∀ u, u ≠ t → s ∉ k.inside u
  held : ∀ x, x ≠ s → (x ∈ l ↔ x ∈ k.inside t)
  nodup : l.Nodup

namespace Turn

/-- The other semaphores are left alone. -/
theorem sem_of_ne (h : Turn k k' t s m l) (hx : x ≠ s) : k'.sem x = k.sem x := by
  rw [h.sem, Function.update_of_ne hx]

theorem sem_self (h : Turn k k' t s m l) : k'.sem s = m := by
  rw [h.sem, Function.update_self]

/-- No semaphore changes its protocol. -/
theorem protocol_eq (h : Turn k k' t s m l) (x : Sid) :
    (k'.sem x).protocol = (k.sem x).protocol := by
  by_cases hx : x = s
  · rw [hx, h.sem_self, h.protocol]
  · rw [h.sem_of_ne hx]

/-- No semaphore changes the place of its ceilings. -/
theorem ceilings_eq (h : Turn k k' t s m l) (x : Sid) :
    (k'.sem x).ceilings = (k.sem x).ceilings := by
  by_cases hx : x = s
  · rw [hx, h.sem_self, h.ceilings]
  · rw [h.sem_of_ne hx]

theorem inside_self (h : Turn k k' t s m l) : k'.inside t = l := by
  rw [h.inside, Function.update_self]

/-- The other threads hold what they held. -/
theorem inside_of_ne (h : Turn k k' t s m l) (hu : u ≠ t) : k'.inside u = k.inside u := by
  rw [h.inside, Function.update_of_ne hu]

/-- The semaphores that the other threads hold are left alone. -/
theorem keeps (h : Turn k k' t s m l) (hu : u ≠ t) (hx : x ∈ k.inside u) :
    k'.sem x = k.sem x := by
  apply h.sem_of_ne
  rintro rfl
  exact h.others u hu hx

/-- Another resource is held by who held it. -/
theorem mem_inside_of_ne (h : Turn k k' t s m l) (hx : x ≠ s) (u : Tid) :
    x ∈ k'.inside u ↔ x ∈ k.inside u := by
  by_cases hu : u = t
  · rw [hu, h.inside_self]
    exact h.held x hx
  · rw [h.inside_of_ne hu]

/-- Only `t` may hold `s`. -/
theorem mem_inside_self (h : Turn k k' t s m l) (u : Tid) : s ∈ k'.inside u ↔ u = t ∧ s ∈ l := by
  by_cases hu : u = t
  · rw [hu, h.inside_self]
    exact (and_iff_right rfl).symm
  · rw [h.inside_of_ne hu]
    exact iff_of_false (h.others u hu) fun hmem => hu hmem.1

/-- A resource that is held is `s`, held by `t`, or was held before. -/
theorem mem_inside (h : Turn k k' t s m l) (hx : x ∈ k'.inside u) :
    (u = t ∧ x = s ∧ s ∈ l) ∨ (x ≠ s ∧ x ∈ k.inside u) := by
  by_cases hxs : x = s
  · subst hxs
    obtain ⟨hu, hmem⟩ := (h.mem_inside_self u).mp hx
    exact .inl ⟨hu, rfl, hmem⟩
  · exact .inr ⟨hxs, (h.mem_inside_of_ne hxs u).mp hx⟩

/-- Nobody holds a resource twice. -/
theorem inside_nodup (h : Turn k k' t s m l) (hnd : ∀ u, (k.inside u).Nodup) (u : Tid) :
    (k'.inside u).Nodup := by
  by_cases hu : u = t
  · rw [hu, h.inside_self]
    exact h.nodup
  · rw [h.inside_of_ne hu]
    exact hnd u

theorem schedulable (h : Turn k k' t s m l) : k'.Schedulable = k.Schedulable := by
  funext u
  rw [Schedulable, Schedulable, h.state]

/-- A holder competes for the CPU, as `t` does. -/
theorem holder (h : Turn k k' t s m l) (ht : k.Schedulable t)
    (hh : ∀ u, k.inside u ≠ [] → k.Schedulable u) (hu : k'.inside u ≠ []) : k'.Schedulable u := by
  rw [h.schedulable]
  by_cases hut : u = t
  · rw [hut]
    exact ht
  · rw [h.inside_of_ne hut] at hu
    exact hh u hu

/-- A call that goes on is one of another thread. -/
theorem call_of_some (h : Turn k k' t s m l) {c : Call} (hc : k'.call u = some c) :
    k.call u = some c := by
  rw [h.call] at hc
  by_cases hut : u = t
  · subst hut
    rw [Function.update_self] at hc
    cases hc
  · rwa [Function.update_of_ne hut] at hc

end Turn

end Kernel

end Epos
