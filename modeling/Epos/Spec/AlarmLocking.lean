import Epos.Kernel.AlarmCalls

/-!
# The lock of the alarm queue

Whoever writes to the alarm queue owns `Thread::_lock`, as long as `reset()` and
`period()` never find it taken by another thread: they would take that for their own
critical section.
-/

namespace Epos

namespace AlarmInstr

variable {α : Type*} {h : Nat} {code : List (AlarmInstr α)}

/-- A thread that holds the lock `h` times and has this code to execute writes only while
    it holds the lock, and in the end has released it as often as it acquired it. -/
def Held : Nat → List (AlarmInstr α) → Prop
  | h, [] => h = 0
  | h, .acquire :: code => Held (h + 1) code
  | h, .release :: code => 0 < h ∧ Held (h - 1) code
  | h, .write _ :: code => 0 < h ∧ Held h code
  | h, _ :: code => Held h code

theorem held_writes (hpos : 0 < h) (body : List (AlarmWrite α)) :
    Held h (body.map .write ++ code) ↔ Held h code := by
  induction body with
  | nil => rfl
  | cons w body ih => exact (and_iff_right hpos).trans ih

/-- A critical section. -/
theorem held_locked (body : List (AlarmWrite α)) :
    Held h (lock ++ body.map .write ++ unlock ++ code) ↔ Held h code := by
  have hwrites := @held_writes α (h + 1) (unlock ++ code) h.succ_pos body
  rw [List.append_assoc, List.append_assoc]
  show Held (h + 1) (body.map .write ++ (unlock ++ code)) ↔ _
  rw [hwrites]
  exact and_iff_right h.succ_pos

end AlarmInstr

open AlarmInstr

/-- Every call leaves the lock as it was. -/
theorem AlarmCall.held_code {α : Type*} {h : Nat} {rest : List (AlarmInstr α)}
    (ticks : Nat → Int) (call : AlarmCall α) : Held h (call.code ticks ++ rest) ↔ Held h rest := by
  cases call with
  | construct a time times =>
    by_cases ht : ticks time ≠ 0
    · simp only [AlarmCall.code, if_pos ht]
      exact held_locked [AlarmWrite.insert a]
    · simp only [AlarmCall.code, if_neg ht]
      exact @held_locked α h (.fire a :: rest) []
  | destroy a => exact @held_locked α h (.delete a :: rest) [AlarmWrite.remove a]
  | reset a => exact Iff.rfl
  | period a p => exact Iff.rfl
  | handler => exact held_locked [AlarmWrite.tick]
  | critical => exact @held_locked α h rest []

namespace AlarmCpus

variable {κ ι α : Type*} [DecidableEq κ] [DecidableEq ι] [DecidableEq α]
  {σ : AlarmCpus κ ι α} {ticks : Nat → Int}

/-- A write to the queue is made by a thread that owns the lock. -/
def Owned (σ : AlarmCpus κ ι α) : CpuAction κ ι α → Prop
  | .exec c => (σ.fetch c).any writesQueue → σ.lock.owner = some (σ.running c)
  | _ => True

/-- `reset()` and `period()` test the lock when it is free or their own. -/
def FreeOrOwn (σ : AlarmCpus κ ι α) : CpuAction κ ι α → Prop
  | .exec c => (σ.fetch c).any testsLock → σ.lock.CanAcquire (σ.running c)
  | _ => True

instance (σ : AlarmCpus κ ι α) : (a : CpuAction κ ι α) → Decidable (σ.Owned a)
  | .exec c =>
    inferInstanceAs (Decidable ((σ.fetch c).any writesQueue → σ.lock.owner = some (σ.running c)))
  | .call _ _ => isTrue trivial
  | .switch _ _ => isTrue trivial

instance (σ : AlarmCpus κ ι α) : (a : CpuAction κ ι α) → Decidable (σ.FreeOrOwn a)
  | .exec c =>
    inferInstanceAs (Decidable ((σ.fetch c).any testsLock → σ.lock.CanAcquire (σ.running c)))
  | .call _ _ => isTrue trivial
  | .switch _ _ => isTrue trivial

/-- The lock is held by a thread whose code releases it, and by no other. -/
def Guarded (σ : AlarmCpus κ ι α) : Prop :=
  ∃ due, σ.lock.Accounts due ∧ ∀ t, Held (due t) (σ.code t)

omit [DecidableEq κ] [DecidableEq α] in
theorem Guarded.setCode {t : ι} {code : List (AlarmInstr α)} {due : ι → Nat}
    (hlock : σ.lock.Accounts due) (hcode : ∀ t, Held (due t) (σ.code t))
    (h : Held (due t) code) : (σ.setCode t code).Guarded := by
  refine ⟨due, hlock, fun t' => ?_⟩
  show Held (due t') (Function.update σ.code t code t')
  by_cases ht : t' = t
  · subst ht
    rwa [Function.update_self]
  · rw [Function.update_of_ne ht]
    exact hcode t'

omit [DecidableEq κ] [DecidableEq α] in
/-- The lock moves with one thread. -/
theorem Guarded.setLock {t : ι} {code : List (AlarmInstr α)} {due : ι → Nat} {d : Nat}
    {lock : RecursiveLock ι} (hlock : lock.Accounts (Function.update due t d))
    (hcode : ∀ t, Held (due t) (σ.code t)) (h : Held d code) :
    Guarded { σ.setCode t code with lock := lock } := by
  refine ⟨Function.update due t d, hlock, fun t' => ?_⟩
  show Held _ (Function.update σ.code t code t')
  by_cases ht : t' = t
  · subst ht
    rwa [Function.update_self, Function.update_self]
  · rw [Function.update_of_ne ht, Function.update_of_ne ht]
    exact hcode t'

omit [DecidableEq κ] [DecidableEq ι] [DecidableEq α] in
theorem Guarded.owned (h : σ.Guarded) (a : CpuAction κ ι α) : σ.Owned a := by
  obtain ⟨due, hlock, hcode⟩ := h
  cases a with
  | call c call => trivial
  | switch c t => trivial
  | exec c =>
    intro hw
    obtain ⟨i, hi, hwrites⟩ := (Option.any_eq_true _ _).mp hw
    obtain ⟨rest, heq⟩ := List.head?_eq_some_iff.mp hi
    have hheld := hcode (σ.running c)
    rw [heq] at hheld
    cases i with
    | write w => exact hlock.owner_eq hheld.1
    | _ => cases hwrites

theorem Guarded.exec (h : σ.Guarded) {c : κ} {i : AlarmInstr α} {rest : List (AlarmInstr α)}
    (hi : σ.code (σ.running c) = i :: rest)
    (hacquire : i = .acquire → σ.lock.CanAcquire (σ.running c))
    (htest : i.testsLock → σ.lock.CanAcquire (σ.running c)) :
    (σ.exec ticks c (σ.running c) rest i).Guarded := by
  obtain ⟨due, hlock, hcode⟩ := h
  have hheld := hcode (σ.running c)
  rw [hi] at hheld
  have hother (d : Nat) (t : ι) (ht : t ≠ σ.running c) :
      Function.update due (σ.running c) d t = due t := Function.update_of_ne ht _ _
  cases i with
  | acquire =>
    exact .setLock (hlock.acquire (hacquire rfl) (Function.update_self _ _ _) (hother _)) hcode
      hheld
  | release =>
    exact .setLock (hlock.release hheld.1 (Function.update_self _ _ _) (hother _)) hcode hheld.2
  | unlessLocked body =>
    by_cases howner : σ.lock.owner ≠ none
    · -- The owner is the caller, who holds the lock and goes on holding it.
      have hpos := hlock.owner_pos _ ((htest rfl).resolve_left howner)
      simp only [AlarmCpus.exec, if_pos howner]
      exact .setCode hlock hcode ((held_writes hpos body).mpr hheld)
    · simp only [AlarmCpus.exec, if_neg howner]
      exact .setCode hlock hcode ((held_locked body).mpr hheld)
  | write w => exact .setCode hlock hcode hheld.2
  | intDisable => exact .setCode hlock hcode hheld
  | intEnable => exact .setCode hlock hcode hheld
  | create a alarm => exact .setCode hlock hcode hheld
  | fire a => exact .setCode hlock hcode hheld
  | delete a => exact .setCode hlock hcode hheld
  | work => exact .setCode hlock hcode hheld

theorem Guarded.step (h : σ.Guarded) (a : CpuAction κ ι α) (ha : σ.CanStep a)
    (hfree : σ.FreeOrOwn a) : (σ.step ticks a).Guarded := by
  cases a with
  | call c call =>
    obtain ⟨due, hlock, hcode⟩ := h
    exact .setCode hlock hcode ((call.held_code ticks).mpr (hcode _))
  | switch c t => exact h
  | exec c =>
    obtain ⟨i, rest, hi⟩ := List.exists_cons_of_ne_nil (l := σ.code (σ.running c)) (by
      intro hnil
      exact ha.1 (by rw [fetch, hnil, List.head?_nil]))
    have hfetch : σ.fetch c = some i := by rw [fetch, hi, List.head?_cons]
    simp only [AlarmCpus.step, hi]
    apply h.exec hi
    · rintro rfl
      exact ha.2 hfetch
    · intro htests
      exact hfree (by rw [hfetch]; exact htests)

omit [DecidableEq κ] [DecidableEq ι] [DecidableEq α] in
theorem Idle.guarded (h : σ.Idle) : σ.Guarded := by
  obtain ⟨-, -, hcode, hlock⟩ := h
  refine ⟨fun _ => 0, ?_, fun t => ?_⟩
  · rw [hlock]
    exact .init
  · rw [hcode]
    rfl

end AlarmCpus

open AlarmCpus

variable {κ ι α : Type*} [DecidableEq κ] [DecidableEq ι] [DecidableEq α]

/-- As long as no `reset()` or `period()` finds the lock in other hands, nobody writes to
    the queue without owning it. -/
theorem alarm_writes_owned (w timerPeriod : Nat) (σ : AlarmCpus κ ι α)
    (as : List (CpuAction κ ι α)) (hinit : (alarmCpus κ ι α w timerPeriod).Init σ)
    (hv : (alarmCpus κ ι α w timerPeriod).Valid σ as)
    (hfree : (alarmCpus κ ι α w timerPeriod).Meets FreeOrOwn σ as) :
    (alarmCpus κ ι α w timerPeriod).Meets Owned σ as :=
  hfree.meets (I := Guarded) (fun _ a h ha hC => h.step a ha hC) (fun _ a h _ _ => h.owned a)
    hinit.guarded hv

/-- Two CPUs with a thread each, and no alarms yet. -/
def twoCpus : AlarmCpus (Fin 2) Nat Nat where
  running c := c
  interrupts _ := true
  code _ := []
  lock := {}
  alarms :=
    { request := some { links := ⟨fun _ => none, fun _ => none⟩, header := {}, rank := fun _ => 0 }
      alarm := fun _ => none
      elapsed := 0
      due := fun _ => 0 }

/-- An alarm of five ticks is constructed, and reset after a section on the other CPU. -/
def resetAfter : List (CpuAction (Fin 2) Nat Nat) :=
  .call 0 (.construct 1 5000 1) :: List.replicate 6 (.exec 0) ++
    .call 1 .critical :: List.replicate 5 (.exec 1) ++
    .call 0 (.reset 1) :: List.replicate 8 (.exec 0)

theorem alarm_writes_owned_example :
    (alarmCpus (Fin 2) Nat Nat 32 1000).Meets Owned twoCpus resetAfter :=
  alarm_writes_owned 32 1000 twoCpus resetAfter
    ⟨fun _ _ h => Fin.ext h, fun _ => rfl, fun _ => rfl, rfl⟩ (by decide) (by decide)

/-- The same during the section. -/
def resetDuring : List (CpuAction (Fin 2) Nat Nat) :=
  .call 0 (.construct 1 5000 1) :: List.replicate 6 (.exec 0) ++
    .call 1 .critical :: List.replicate 2 (.exec 1) ++
    .call 0 (.reset 1) :: List.replicate 2 (.exec 0)

theorem alarm_write_unowned :
    ¬∀ as, (alarmCpus (Fin 2) Nat Nat 32 1000).Valid twoCpus as →
      (alarmCpus (Fin 2) Nat Nat 32 1000).Meets Owned twoCpus as := by
  intro h
  exact absurd (h resetDuring (by decide)) (by decide)

end Epos
