import Epos.Spec.ThreadPlacement

/-!
# Suspending other threads and passing the processor

`suspend()` and `pass()` take their thread out of the ready list of its core whatever
its state is. As long as threads are suspended only while they run or are ready, and
passed to only while they are in a ready list, all lists stay well formed, also where
the thread runs on another core. `Kernel.Placed` does not survive that: a core whose
thread is suspended goes on with it, and its next thread has been chosen but not
dispatched.
-/

namespace Epos

namespace LinkedKernel

open Epos.Lists

variable {k : LinkedKernel} {sched : Nat → SchedulingList} {queue : Sid → List Tid} {c : Nat}
  {t u : Tid}

/-! ## What the operations are for -/

/-- All headers represent lists, and no element is in two of them. -/
def WellFormed (k : LinkedKernel) : Prop := ∃ l, k.links.Holds k.header l

/-- `t` competes for its core and is not the chosen thread there. -/
def Listed (k : LinkedKernel) (t : Tid) : Prop :=
  (k.state t = some .running ∨ k.state t = some .ready) ∧ k.chosen (k.core t) ≠ some t

/-- The core goes to a thread of a ready list, or nothing changes. -/
def PassesToListed (k : LinkedKernel) (c : Nat) (t : Tid) : Prop :=
  ∃ k' next, k.pass c t = some (k', next) ∧
    match next with
    | some u => ∃ l, k.links.Holds k.header l ∧ u ∈ l (.ready (k.core u))
    | none => k' = k

/-- What `suspend()` and `pass()` are called on. -/
def Careful (k : LinkedKernel) : LinkedAction → Prop
  | .suspend _ u =>
    (k.state u = some .running ∨ k.state u = some .ready) ∧ u ≠ k.idle (k.core u)
  | .pass c t => k.chosen c = some t ∨ k.Listed t
  | _ => True

/-! ## Steps -/

/-- A thread that passes its core to itself keeps it. -/
theorem pass_self (hch : k.chosen c = some t) (hcore : k.core t = c) :
    k.pass c t = some (k, none) := by
  subst hcore
  have hs : (k.sched (k.core t)).chosen = some t := hch
  have hsame : k.chooseElement t = some k := by
    unfold LinkedKernel.chooseElement onSched LinkedSchedulingList.chooseElement
    dsimp only
    rw [if_pos hs, Option.map_some]
    refine congrArg some ?_
    show k.setLists (k.setSched (k.core t) ⟨(k.sched (k.core t)).toLinkedList, k.chosen _⟩) = k
    rw [setSched_listed]
    show k.setLists ⟨_, Function.update k.header _ (k.header _), _⟩ = k
    rw [Function.update_eq_self]
    rfl
  unfold LinkedKernel.pass
  simp only [hch, hsame, Option.bind_eq_bind, Option.bind_some, if_true]
  rw [dispatch, if_pos rfl]

theorem Consistent.schedulable_of_careful (h : k.Consistent sched queue) (hc : c < k.cores)
    (hcare : k.Careful (.pass c t)) : (k.view sched).Schedulable t := by
  cases hcare with
  | inl hch =>
    obtain ⟨prev, -, hrun, -, hs⟩ := h.exists_chosen hc
    obtain rfl := Option.some.inj (hrun.symm.trans hch)
    exact hs
  | inr hl => exact hl.1

/-- A careful `pass()` goes to a thread of a ready list. -/
theorem Consistent.passesToListed (h : k.Consistent sched queue) (hc : c < k.cores)
    (hcare : k.Careful (.pass c t)) : k.PassesToListed c t := by
  obtain ⟨prev, -, hrun, hcore, -⟩ := h.exists_chosen hc
  cases hcare with
  | inl hch =>
    obtain rfl := Option.some.inj (hrun.symm.trans hch)
    exact ⟨k, none, pass_self hch hcore, rfl⟩
  | inr hl =>
    obtain ⟨hs, hne⟩ := hl
    obtain ⟨k', sched', -, heq⟩ := h.pass hc hs
    have hself : k.chosen c ≠ some t := by
      intro hch
      obtain rfl := Option.some.inj (hrun.symm.trans hch)
      exact hne (hcore.symm ▸ hch)
    rw [if_neg hself] at heq
    refine ⟨k', some t, heq, contents sched queue, h.holds.lists, ?_⟩
    have hmem : t ∈ (sched (k.core t)).toList := (h.queued.mem_iff _ t).mpr ⟨hs, rfl⟩
    refine (SchedulingList.mem_toList.mp hmem).resolve_left fun hch => hne ?_
    rw [h.holds.chosen, hch]

/-- A careful operation keeps the lists consistent. -/
theorem Consistent.step_careful {a : LinkedAction} (h : k.Consistent sched queue)
    (ha : k.CanAct a) (hcare : k.Careful a) : Keeps False (k.step a) := by
  cases a with
  | create c t st crit => exact (h.create ha.1 ha.2.1 ha.2.2.1 ha.2.2.2).imp False.elim
  | yield c => exact (h.yield ha).imp False.elim
  | sleep c s => exact (h.sleep ha).imp False.elim
  | wakeup c s => exact (h.wakeup ha).imp False.elim
  | wakeupAll c s => exact (h.wakeupAll ha).imp False.elim
  | join c u => exact (h.join ha.1).imp False.elim
  | exit c => exact (h.exit ha).imp False.elim
  | suspend c u => exact (h.suspend ha.1 hcare.1 hcare.2).imp False.elim
  | resume c u => exact (h.resume ha.1 ha.2).imp False.elim
  | pass c t =>
    obtain ⟨k', sched', hk', heq⟩ := h.pass ha.1 (h.schedulable_of_careful ha.1 hcare)
    exact ⟨k', sched', queue, congrArg (Option.map Prod.fst) heq, hk', False.elim⟩
  | reschedule c => exact (h.reschedule ha).imp False.elim
  | setRank u prio => exact ⟨_, sched, queue, rfl, h.setRank, False.elim⟩
  | elect eligible => exact ⟨_, sched, queue, rfl, h.elect, False.elim⟩

/-- There is a kernel, and its lists are consistent. -/
def Linked (o : Option LinkedKernel) : Prop :=
  ∃ k sched queue, o = some k ∧ k.Consistent sched queue

def CarefulStep (o : Option LinkedKernel) (a : LinkedAction) : Prop :=
  o.elim True fun k => k.Careful a

theorem linked_next {o : Option LinkedKernel} {a : LinkedAction} (h : Linked o)
    (ha : system.Enabled o a) (hcare : CarefulStep o a) : Linked (system.next o a) := by
  obtain ⟨k, sched, queue, rfl, hk⟩ := h
  obtain ⟨k', sched', queue', heq, hk', -⟩ := hk.step_careful ha hcare
  exact ⟨k', sched', queue', heq, hk'⟩

/-- What a step that passes a core does. -/
def PassStep (o : Option LinkedKernel) (a : LinkedAction) : Prop :=
  ∀ c t, a = .pass c t → ∃ k, o = some k ∧ k.PassesToListed c t

end LinkedKernel

open LinkedKernel

/-- In every run of careful operations all lists stay well formed, and `pass()` goes to
    threads of the ready lists only. -/
theorem wellFormed_of_careful {k : LinkedKernel} (hk : k.Boot) (as : List LinkedAction)
    (hv : system.Valid (some k) as) (hcare : system.Meets CarefulStep (some k) as) :
    system.Always (fun o => ∃ k', o = some k' ∧ k'.WellFormed) (some k) as ∧
      system.Meets PassStep (some k) as := by
  have hinit : Linked (some k) := ⟨k, _, _, rfl, hk.consistent⟩
  have hstep (o : Option LinkedKernel) (a : LinkedAction) (h : Linked o)
      (ha : system.Enabled o a) (hc : CarefulStep o a) : Linked (system.next o a) :=
    linked_next h ha hc
  constructor
  · refine (TransitionSystem.Meets.always hstep hinit hv hcare).imp fun o ho => ?_
    obtain ⟨k', sched, queue, heq, hcons⟩ := ho
    exact ⟨k', heq, _, hcons.holds.lists⟩
  · refine TransitionSystem.Meets.meets hstep (fun o a h ha hc => ?_) hinit hv hcare
    rintro c t rfl
    obtain ⟨k', sched, queue, rfl, hcons⟩ := h
    exact ⟨k', rfl, hcons.passesToListed ha.1 hc⟩

/-- The thread 0 passes its core to the thread 3, the other core suspends the thread 0, and
    the thread 3 passes its core to itself. -/
theorem wellFormed_of_careful_pass :
    system.Always (fun o => ∃ k, o = some k ∧ k.WellFormed) (some linkedExample)
        [.create 0 3 .ready ⟨5, 0⟩, .pass 0 3, .suspend 1 0, .pass 0 3] ∧
      system.Meets PassStep (some linkedExample)
        [.create 0 3 .ready ⟨5, 0⟩, .pass 0 3, .suspend 1 0, .pass 0 3] :=
  wellFormed_of_careful linkedExample_boot _
    ⟨⟨Nat.zero_lt_two, rfl, Nat.zero_lt_two, .inl rfl⟩, ⟨Nat.zero_lt_two, by decide⟩,
      ⟨Nat.one_lt_two, by decide⟩, ⟨Nat.zero_lt_two, by decide⟩, trivial⟩
    ⟨trivial, .inr ⟨.inr rfl, by decide⟩, ⟨.inr rfl, by decide⟩, .inl rfl, trivial⟩

/-- The threads 3 and 4 are created, and the thread 4 is suspended between the thread 3 and
    the idle thread. -/
def suspendListed : List LinkedAction :=
  [.create 0 3 .ready ⟨5, 0⟩, .create 0 4 .ready ⟨5, 0⟩, .suspend 0 4]

/-- If it is suspended again, then the ready list loses its size; if it is passed to, then it
    runs. -/
theorem not_wellFormed_of_suspend : system.Valid (some linkedExample) suspendListed ∧
    ∃ k, system.run (some linkedExample) suspendListed = some k ∧ k.WellFormed ∧
      (∃ k', k.suspend 0 4 = some k' ∧ ¬k'.WellFormed) ∧ ¬k.PassesToListed 0 4 := by
  have hv : system.Valid (some linkedExample) suspendListed :=
    ⟨⟨Nat.zero_lt_two, rfl, Nat.zero_lt_two, .inl rfl⟩,
      ⟨Nat.zero_lt_two, rfl, Nat.zero_lt_two, .inl rfl⟩, ⟨Nat.zero_lt_two, by decide⟩, trivial⟩
  have hm : system.Meets CarefulStep (some linkedExample) suspendListed :=
    ⟨trivial, trivial, ⟨.inr rfl, by decide⟩, trivial⟩
  have hlinked : Linked (system.run (some linkedExample) suspendListed) :=
    (TransitionSystem.Meets.always (fun _ _ => linked_next)
      ⟨_, _, _, rfl, linkedExample_boot.consistent⟩ hv hm).last
  obtain ⟨k, sched, queue, heq, hk⟩ := hlinked
  have hheader : (system.run (some linkedExample) suspendListed).map
      (fun k => (k.header (.ready 0), k.core 4)) =
        some ({ size := 2, head := some 3, tail := some 1 }, 0) := by decide
  have hsuspend : ((system.run (some linkedExample) suspendListed).bind (·.suspend 0 4)).map
      (fun k => k.header (.ready 0)) = some { size := 1, head := some 3, tail := some 1 } := by
    decide
  have hpass : ((system.run (some linkedExample) suspendListed).bind (·.pass 0 4)).map Prod.snd =
      some (some 4) := rfl
  rw [heq] at hheader hsuspend hpass
  obtain ⟨hh, hcore⟩ := Prod.mk.inj (Option.some.inj hheader)
  refine ⟨hv, k, heq, ⟨_, hk.holds.lists⟩, ?_, ?_⟩
  · obtain ⟨k', hk', hh'⟩ := Option.map_eq_some_iff.mp hsuspend
    refine ⟨k', hk', fun ⟨l, hl⟩ => ?_⟩
    obtain ⟨hsize, hhead, htail, -⟩ := hl.represents (.ready 0)
    rw [hh'] at hsize hhead htail
    -- One element that is both the head and the tail.
    match l (.ready 0), hsize, hhead, htail with
    | [x], _, hhead, htail => cases Option.some.inj (hhead.trans htail.symm)
  · intro ⟨k', next, hk', hnext⟩
    obtain ⟨r, hr, hr'⟩ := Option.map_eq_some_iff.mp hpass
    obtain rfl := Option.some.inj (hk'.symm.trans hr)
    obtain rfl : next = some 4 := hr'
    obtain ⟨l, hl, hmem⟩ := hnext
    obtain ⟨hsize, hhead, htail, -⟩ := hl.represents (.ready 0)
    rw [hcore] at hmem
    rw [hh] at hsize hhead htail
    match l (.ready 0), hsize, hhead, htail, hmem with
    | [x, y], _, hhead, htail, hmem =>
      cases hhead
      cases htail
      simp at hmem

end Epos
