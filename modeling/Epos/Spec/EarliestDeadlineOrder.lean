import Epos.Kernel.EarliestDeadline
import Epos.Kernel.Thread
import Mathlib.Algebra.Group.Int.Defs

/-!
# The order of the deadlines

`update()` keeps the priorities in the order of the absolute deadlines as long as these do
not leave the numbers between `PERIODIC` and `APERIODIC`, in one turn of the counter, and no
thread begins with a priority outside of them.
-/

namespace Epos

/-- A priority of a periodic job. -/
def Periodic (p : Int) : Prop := Priority.high < p ∧ p < Priority.normal

instance (p : Int) : Decidable (Periodic p) :=
  inferInstanceAs (Decidable (Priority.high < p ∧ p < Priority.normal))

/-- The criterion of the kernel is updated in the same way. -/
theorem Kernel.update_priority (k : Kernel) (u : Tid) (elapsed : Int) :
    (k.update u elapsed).priority u =
      ((Edf.mk (k.priority u) (k.deadline u)).update elapsed).priority := by
  unfold Kernel.update Edf.update
  dsimp only
  split
  · exact Function.update_self ..
  · rfl

/-- Wrapping once is enough. -/
theorem toInt_toInt_add (x y : Int) : toInt (toInt x + y) = toInt (x + y) := Int.bmod_add_bmod

/-- In the turn `k` of the counter. -/
theorem toInt_eq_sub {x k : Int} (hlo : -2 ^ 31 ≤ x - k * 2 ^ 32) (hhi : x - k * 2 ^ 32 < 2 ^ 31) :
    toInt x = x - k * 2 ^ 32 := by
  unfold toInt
  rw [Int.bmod_def]
  split <;> omega

namespace Edf

/-- The first rank is the deadline in ticks. -/
theorem construct_priority (w timerPeriod d : Nat) :
    (construct w timerPeriod d).priority = ticks w timerPeriod d := by
  unfold construct
  dsimp only

/-- The relative deadline is kept in ticks. -/
theorem construct_deadline (w timerPeriod d : Nat) :
    (construct w timerPeriod d).deadline = ticks w timerPeriod d := by
  unfold construct
  dsimp only

end Edf

namespace EdfRun

variable {τ : Type*} [DecidableEq τ] {w timerPeriod : Nat} {s : EdfRun τ} {t : τ} {d : Nat}
  {a : EdfAction τ} {k : Int}

/-- The jobs have priorities between `PERIODIC` and `APERIODIC`, and of two jobs the one with
    the earlier deadline has the more urgent priority. -/
structure InOrder (jobs : List EdfJob) : Prop where
  periodic : ∀ j ∈ jobs, Periodic j.priority
  order : ∀ i ∈ jobs, ∀ j ∈ jobs, i.deadline < j.deadline → i.priority < j.priority

omit [DecidableEq τ] in
/-- The jobs that `update()` has assigned a priority to. -/
def updatedJobs (s : EdfRun τ) : List EdfJob := s.jobs.filter (·.updated)

/-- A thread is created without activation time, with a deadline of more than one tick. The
    absolute deadlines of the jobs that are released stay within the turn `k` of the counter,
    less its first two and its last values. -/
def Within (w timerPeriod : Nat) (k : Int) (s : EdfRun τ) : EdfAction τ → Prop
  | .tick => True
  | .create _ d activation => activation = false ∧ Periodic (ticks w timerPeriod d)
  | .release t => ∀ e ∈ s.criterion t, Periodic (s.time + e.deadline - k * 2 ^ 32)

/-- Threads are created at the beginning of the turn. -/
def AtStart (k : Int) (s : EdfRun τ) : EdfAction τ → Prop
  | .create .. => s.time = k * 2 ^ 32
  | _ => True

instance (w timerPeriod : Nat) (k : Int) (s : EdfRun τ) (a : EdfAction τ) :
    Decidable (s.Within w timerPeriod k a) :=
  match a with
  | .tick => inferInstanceAs (Decidable True)
  | .create _ d activation =>
    inferInstanceAs (Decidable (activation = false ∧ Periodic (ticks w timerPeriod d)))
  | .release t =>
    inferInstanceAs (Decidable (∀ e ∈ s.criterion t, Periodic (s.time + e.deadline - k * 2 ^ 32)))

instance (k : Int) (s : EdfRun τ) (a : EdfAction τ) : Decidable (s.AtStart k a) :=
  match a with
  | .create .. => inferInstanceAs (Decidable (s.time = k * 2 ^ 32))
  | .tick => inferInstanceAs (Decidable True)
  | .release _ => inferInstanceAs (Decidable True)

instance (w timerPeriod : Nat) (s : EdfRun τ) (a : EdfAction τ) :
    Decidable ((edfThreads τ w timerPeriod).Enabled s a) :=
  match a with
  | .tick => inferInstanceAs (Decidable True)
  | .create t d _ =>
    inferInstanceAs (Decidable (s.criterion t = none ∧ 0 < ticks w timerPeriod d))
  | .release t => inferInstanceAs (Decidable ((s.criterion t).isSome = true))

/-- The priority is the absolute deadline in the turn `k`. -/
def Exact (k : Int) (j : EdfJob) : Prop :=
  j.priority = j.deadline - k * 2 ^ 32 ∧ Periodic j.priority

/-- Jobs with exact ranks are in order. -/
theorem inOrder_of_exact {jobs : List EdfJob} (h : ∀ j ∈ jobs, Exact k j) : InOrder jobs where
  periodic := fun j hj => (h j hj).2
  order := by
    intro i hi j hj hlt
    have heq := (h i hi).1
    have heq' := (h j hj).1
    omega

structure Inv (k : Int) (s : EdfRun τ) : Prop where
  elapsed : s.elapsed = toInt s.time
  criterion : ∀ t, ∀ e ∈ s.criterion t, Periodic e.priority
  jobs : ∀ j ∈ s.jobs, j.updated → Exact k j

omit [DecidableEq τ] in
/-- The invariant gives what is claimed of every state. -/
theorem Inv.inOrder (h : s.Inv k) : InOrder s.updatedJobs := by
  apply inOrder_of_exact
  intro j hj
  obtain ⟨hmem, hupdated⟩ := List.mem_filter.mp hj
  exact h.jobs j hmem hupdated

/-- The invariant holds before there are threads. -/
theorem inv_init (h : (edfThreads τ w timerPeriod).Init s) : s.Inv k := by
  obtain ⟨helapsed, hnone, hjobs⟩ := h
  refine ⟨helapsed, fun t e he => ?_, ?_⟩
  · rw [hnone] at he
    cases he
  · rw [hjobs]
    exact List.forall_mem_nil _

omit [DecidableEq τ] in
/-- `update()` assigns the absolute deadline, in the turn `k`. -/
theorem Inv.update {e : Edf} (h : s.Inv k) (he : Periodic e.priority)
    (hd : Periodic (s.time + e.deadline - k * 2 ^ 32)) :
    (e.update s.elapsed).deadline = e.deadline ∧
      (e.update s.elapsed).priority = s.time + e.deadline - k * 2 ^ 32 := by
  -- The guard of `update()` passes, and the sum leaves the turn nowhere.
  have hguard : Priority.high < e.priority ∧ e.priority < Priority.normal := he
  unfold Edf.update
  rw [if_pos hguard]
  refine ⟨rfl, ?_⟩
  show toInt (s.elapsed + e.deadline) = _
  obtain ⟨hlo, hhi⟩ := hd
  unfold Priority.high at hlo
  unfold Priority.normal at hhi
  rw [h.elapsed, toInt_toInt_add]
  exact toInt_eq_sub (by omega) (by omega)

/-- A new thread keeps the invariant. -/
theorem Inv.create (h : s.Inv k) (hd : Periodic (ticks w timerPeriod d)) :
    (s.create w timerPeriod t d false).Inv k := by
  refine ⟨h.elapsed, fun u e he => ?_, fun j hj hupdated => ?_⟩
  · by_cases hu : u = t
    · subst hu
      have hsome : (s.create w timerPeriod u d false).criterion u =
          some (Edf.construct w timerPeriod d) := Function.update_self ..
      rw [hsome] at he
      rw [← Option.some.inj he, Edf.construct_priority]
      exact hd
    · have hsome : (s.create w timerPeriod t d false).criterion u = s.criterion u :=
        Function.update_of_ne hu ..
      rw [hsome] at he
      exact h.criterion u e he
  · cases List.mem_cons.mp hj with
    | inl heq =>
      subst heq
      cases hupdated
    | inr hj => exact h.jobs j hj hupdated

/-- A job that is released has an exact rank. -/
theorem Inv.release (h : s.Inv k)
    (hd : ∀ e ∈ s.criterion t, Periodic (s.time + e.deadline - k * 2 ^ 32)) :
    (s.release t).Inv k ∧ ∀ j ∈ (s.release t).jobs, j ∈ s.jobs ∨ Exact k j := by
  unfold EdfRun.release
  cases hsome : s.criterion t with
  | none => exact ⟨h, fun j hj => .inl hj⟩
  | some e =>
    have hd' := hd e hsome
    obtain ⟨hdeadline, hpriority⟩ := h.update (h.criterion t e hsome) hd'
    -- the job is released with the rank of its new deadline
    have hexact : Exact k ⟨s.time + (e.update s.elapsed).deadline,
        (e.update s.elapsed).priority, true⟩ := by
      constructor
      · show (e.update s.elapsed).priority = s.time + (e.update s.elapsed).deadline - _
        rw [hdeadline, hpriority]
      · show Periodic (e.update s.elapsed).priority
        rw [hpriority]
        exact hd'
    refine ⟨⟨h.elapsed, fun u e' he => ?_, fun j hj hupdated => ?_⟩, fun j hj => ?_⟩
    · have he' : Function.update s.criterion t (some (e.update s.elapsed)) u = some e' := he
      by_cases hu : u = t
      · rw [hu, Function.update_self] at he'
        obtain rfl := Option.some.inj he'
        exact hexact.2
      · rw [Function.update_of_ne hu] at he'
        exact h.criterion u e' he'
    · cases List.mem_cons.mp hj with
      | inl heq => exact heq ▸ hexact
      | inr hj => exact h.jobs j hj hupdated
    · cases List.mem_cons.mp hj with
      | inl heq => exact .inr (heq ▸ hexact)
      | inr hj => exact .inl hj

/-- A tick keeps the invariant. -/
theorem Inv.tick (h : s.Inv k) : (s.step w timerPeriod .tick).Inv k where
  elapsed := by
    show toInt (s.elapsed + 1) = toInt (s.time + 1)
    rw [h.elapsed, toInt_toInt_add]
  criterion := h.criterion
  jobs := h.jobs

/-- Every step within the range keeps the invariant. -/
theorem Inv.step (h : s.Inv k) (hw : s.Within w timerPeriod k a) :
    (s.step w timerPeriod a).Inv k := by
  cases a with
  | tick => exact h.tick
  | create t d activation =>
    obtain ⟨rfl, hd⟩ := hw
    exact h.create hd
  | release t => exact (h.release hw).1

/-- The first job of a thread that is created at the start is in order, too. -/
theorem Inv.step_jobs (h : s.Inv k) (hjobs : ∀ j ∈ s.jobs, Exact k j)
    (hw : s.Within w timerPeriod k a) (hstart : s.AtStart k a) :
    ∀ j ∈ (s.step w timerPeriod a).jobs, Exact k j := by
  intro j hj
  cases a with
  | tick => exact hjobs j hj
  | create t d activation =>
    -- The relative deadline is the absolute one at the start.
    obtain ⟨rfl, hd⟩ := hw
    cases List.mem_cons.mp hj with
    | inl heq =>
      have htime : s.time = k * 2 ^ 32 := hstart
      have hfirst : Exact k ⟨s.time + (Edf.construct w timerPeriod d).deadline,
          (Edf.construct w timerPeriod d).priority, false⟩ := by
        rw [Edf.construct_priority, Edf.construct_deadline, htime]
        generalize ticks w timerPeriod d = ticks at hd ⊢
        refine ⟨?_, hd⟩
        dsimp only
        omega
      exact heq ▸ hfirst
    | inr hj => exact hjobs j hj
  | release t =>
    cases (h.release hw).2 j hj with
    | inl hj => exact hjobs j hj
    | inr hexact => exact hexact

end EdfRun

open EdfRun

/-- In every run with absolute deadlines in one turn of the counter, the jobs that `update()`
    has assigned a priority to are in order. So are all jobs if the threads are created at the
    start of the turn. -/
theorem edf_in_order {τ : Type*} [DecidableEq τ] {w timerPeriod : Nat} {k : Int} {s : EdfRun τ}
    {as : List (EdfAction τ)} (hinit : (edfThreads τ w timerPeriod).Init s)
    (hvalid : (edfThreads τ w timerPeriod).Valid s as)
    (hmeets : (edfThreads τ w timerPeriod).Meets (Within w timerPeriod k) s as) :
    (edfThreads τ w timerPeriod).Always (fun s => InOrder s.updatedJobs) s as ∧
      ((edfThreads τ w timerPeriod).Meets
          (fun s a => Within w timerPeriod k s a ∧ AtStart k s a) s as →
        (edfThreads τ w timerPeriod).Always (fun s => InOrder s.jobs) s as) := by
  constructor
  · have hinv : (edfThreads τ w timerPeriod).Always (Inv k) s as :=
      hmeets.always (fun s a h _ hw => h.step hw) (inv_init hinit) hvalid
    exact hinv.imp fun s h => h.inOrder
  · intro hstart
    have hinv : (edfThreads τ w timerPeriod).Always
        (fun s => s.Inv k ∧ ∀ j ∈ s.jobs, Exact k j) s as := by
      refine hstart.always (fun s a h _ hw => ⟨h.1.step hw.1, h.1.step_jobs h.2 hw.1 hw.2⟩)
        ⟨inv_init hinit, ?_⟩ hvalid
      rw [hinit.2.2]
      exact List.forall_mem_nil _
    exact hinv.imp fun s h => inOrder_of_exact h.2

/-- No threads, after `time` ticks. -/
def noThreads (time : Int) : EdfRun Nat where
  time := time
  elapsed := toInt time
  criterion := fun _ => none

/-- There are no threads at the beginning. -/
theorem noThreads_init (time : Int) (w timerPeriod : Nat) :
    (edfThreads Nat w timerPeriod).Init (noThreads time) :=
  ⟨rfl, fun _ => rfl, rfl⟩

/-- Deadlines of 10 and 4 ticks, with a tick of a millisecond. -/
theorem edf_in_order_example :
    let as : List (EdfAction Nat) :=
      [.create 0 10000 false, .create 1 4000 false, .tick, .tick, .release 1, .tick, .release 0]
    (edfThreads Nat 32 1000).Always (fun s => InOrder s.updatedJobs) (noThreads 0) as ∧
      (edfThreads Nat 32 1000).Always (fun s => InOrder s.jobs) (noThreads 0) as := by
  intro as
  have h := @edf_in_order Nat _ 32 1000 0 (noThreads 0) as (noThreads_init 0 32 1000)
    (by decide +kernel) (by decide +kernel)
  exact ⟨h.1, h.2 (by decide +kernel)⟩

/-- Ten ticks before the counter wraps, a job with a deadline of 20 ticks gets a negative
    priority, which no later update changes. -/
theorem not_edf_in_order :
    ¬∀ (s : EdfRun Nat) (as : List (EdfAction Nat)),
      (edfThreads Nat 32 1000).Init s → (edfThreads Nat 32 1000).Valid s as →
        (edfThreads Nat 32 1000).Always (fun s => InOrder s.updatedJobs) s as := by
  intro h
  have hlast := (h (noThreads (2 ^ 31 - 10)) [.create 0 20000 false, .release 0]
    (noThreads_init _ 32 1000) (by decide +kernel)).last.periodic
  have hperiodic := hlast ⟨2 ^ 31 + 10, -2 ^ 31 + 10, true⟩ (by decide +kernel)
  exact absurd hperiodic (by decide +kernel)

/-- A thread with an activation time keeps the priority `PERIODIC`, which is not one that
    `update()` changes. -/
example : ((edfThreads Nat 32 1000).run (noThreads 0)
    [.create 0 20000 true, .tick, .release 0, .tick, .release 0]).jobs.map (·.priority) =
      [1, 1] := by decide +kernel

end Epos
