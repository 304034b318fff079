import Epos.Kernel.Synchronizer

/-!
# What `p()` and `v()` do to the synchronizers

One equation for each way through `p()` and `v()` of a semaphore with an owner.
The four classes differ only in the priority of a new owner (`taken`) and in what
a contender makes of the owner's priority (`contended`), so the later files
reason about these equations and never unfold a class again.
-/

namespace Epos

/-- The priority of a thread of priority `p` once it owns the semaphore. -/
def Protocol.taken (ceiling p : Int) : Protocol → Int
  | .ipcp => ceiling
  | .mpcp highestPriority => SemaphoreMPCP.toGlobalCeiling highestPriority p
  | _ => p

/-- The priority of an owner of priority `own` after a `p()` by a thread of
    priority `p`. -/
def Protocol.contended (ceiling own p : Int) : Protocol → Int
  | .pip => if p < own then p else own
  | .pcp => if ceiling < own then ceiling else own
  | _ => own

/-- Contention never lowers the owner's priority. -/
theorem Protocol.contended_le (ceiling own p : Int) (k : Protocol) :
    k.contended ceiling own p ≤ own := by
  cases k <;> simp only [Protocol.contended] <;> (try split) <;> omega

/-- MSRP has no owner. -/
theorem Protocol.ne_msrp_of_owned {k : Protocol} (h : k.owned) : k ≠ .msrp := by
  rintro rfl
  cases h

namespace Sync

variable {σ : Sync} {s : Sid} {t own : Tid}

/-! ## Field updates -/

/-- A priority is no part of a semaphore. -/
@[simp] theorem setPriority_sem (σ : Sync) (t : Tid) (p : Int) :
    (σ.setPriority t p).sem = σ.sem := rfl

/-- One priority changes. -/
@[simp] theorem setPriority_priority (σ : Sync) (t : Tid) (p : Int) :
    (σ.setPriority t p).priority = Function.update σ.priority t p := rfl

/-- A priority is no ceiling. -/
@[simp] theorem setPriority_store (σ : Sync) (t : Tid) (p : Int) :
    (σ.setPriority t p).store = σ.store := rfl

/-- A semaphore has no part in the priorities. -/
@[simp] theorem modify_priority (σ : Sync) (s : Sid) (f : Semaphore → Semaphore) :
    (σ.modify s f).priority = σ.priority := rfl

/-- A semaphore has no part in the ceilings. -/
@[simp] theorem modify_store (σ : Sync) (s : Sid) (f : Semaphore → Semaphore) :
    (σ.modify s f).store = σ.store := rfl

/-- One semaphore changes. -/
@[simp] theorem modify_sem (σ : Sync) (s : Sid) (f : Semaphore → Semaphore) :
    (σ.modify s f).sem = Function.update σ.sem s (f (σ.sem s)) := rfl

/-- Setting the same priority changes nothing. -/
theorem setPriority_self (σ : Sync) (t : Tid) : σ.setPriority t (σ.priority t) = σ := by
  simp [setPriority]

/-! ## The counter -/

/-- `p()` of the template in one piece. -/
theorem template_p_eq (σ : Sync) (s : Sid) (t : Tid) :
    SemaphoreTemplate.p σ s t =
      (σ.modify s fun m =>
        { m with
          value := m.value - 1
          queue :=
            if m.value < 1 then
              if m.protocol = .msrp then m.queue ++ [t] else m.queue.insertRank σ.priority t
            else m.queue },
       decide ((σ.sem s).value < 1)) := by
  simp only [SemaphoreTemplate.p]
  split
  · rename_i h
    simp [enqueue, modify, h]
  · rename_i h
    simp [modify, h]

/-- `v()` of the template in one piece. -/
theorem template_v_eq (σ : Sync) (s : Sid) :
    SemaphoreTemplate.v σ s =
      (σ.modify s fun m =>
        { m with
          value := m.value + 1
          queue := if m.value < 0 then m.queue.tail else m.queue },
       if (σ.sem s).value < 0 then (σ.sem s).queue.head? else none) := by
  simp only [SemaphoreTemplate.v]
  split
  · rename_i h
    simp [dequeue, modify, h]
  · rename_i h
    simp [modify, h]

/-! ## The four classes as one

`take` and `contend` of every class, in terms of `taken` and `contended`. -/

/-- A class whose hooks are described by `k.taken` and `k.contended`. -/
structure Hooks (k : Protocol) (take : Sync → Sid → Tid → Sync)
    (contend : Sync → Sid → Tid → Tid → Sync) : Prop where
  take_eq : ∀ σ s own, take σ s own =
    (σ.modify s fun m => { m with priority := σ.priority own }).setPriority own
      (k.taken (σ.ceiling s) (σ.priority own))
  contend_eq : ∀ σ s own t, contend σ s own t =
    σ.setPriority own (k.contended (σ.ceiling s) (σ.priority own) (σ.priority t))

/-- What PIP does at its hooks. -/
theorem hooks_pip : Hooks .pip SemaphorePIP.saveOwner SemaphorePIP.inherit where
  take_eq σ s own := (setPriority_self (σ.savePriority s (σ.priority own)) own).symm
  contend_eq σ s own t := by
    simp only [SemaphorePIP.inherit, Protocol.contended]
    split
    · rfl
    · rw [setPriority_self]

/-- What PCP does at its hooks. -/
theorem hooks_pcp :
    Hooks .pcp SemaphorePIP.saveOwner (fun σ s own _ => SemaphorePCP.toCeiling σ s own) where
  take_eq σ s own := (setPriority_self (σ.savePriority s (σ.priority own)) own).symm
  contend_eq σ s own t := by
    simp only [SemaphorePCP.toCeiling, Protocol.contended]
    split
    · rfl
    · rw [setPriority_self]

/-- What IPCP does at its hooks. -/
theorem hooks_ipcp : Hooks .ipcp SemaphoreIPCP.toCeiling (fun σ _ _ _ => σ) where
  take_eq σ s own := by
    simp [SemaphoreIPCP.toCeiling, savePriority, ceiling, Protocol.taken]
  contend_eq σ s own t := (setPriority_self σ own).symm

/-- What MPCP does at its hooks. -/
theorem hooks_mpcp (hp : Int) :
    Hooks (.mpcp hp) (SemaphoreMPCP.toCeiling hp) (fun σ _ _ _ => σ) where
  take_eq σ s own := by
    simp [SemaphoreMPCP.toCeiling, savePriority, Protocol.taken]
  contend_eq σ s own t := (setPriority_self σ own).symm

/-- Every class with an owner is an instance of the one shape. -/
theorem exists_hooks {k : Protocol} (hk : k.owned) :
    ∃ take contend, Hooks k take contend ∧
      ∀ σ s t, (σ.sem s).protocol = k →
        σ.p s t = SemaphoreRT.p take contend σ s t ∧ σ.v s t = SemaphoreRT.v take σ s t := by
  cases k with
  | pip =>
    exact ⟨_, _, hooks_pip, fun σ s t h => by
      simp [Sync.p, Sync.v, h, SemaphorePIP.p, SemaphorePIP.v]⟩
  | ipcp =>
    exact ⟨_, _, hooks_ipcp, fun σ s t h => by
      simp [Sync.p, Sync.v, h, SemaphoreIPCP.p, SemaphoreIPCP.v]⟩
  | pcp =>
    exact ⟨_, _, hooks_pcp, fun σ s t h => by
      simp [Sync.p, Sync.v, h, SemaphorePCP.p, SemaphorePCP.v]⟩
  | mpcp hp =>
    exact ⟨_, _, hooks_mpcp hp, fun σ s t h => by
      simp [Sync.p, Sync.v, h, SemaphoreMPCP.p, SemaphoreMPCP.v]⟩
  | condition | plain | srp | msrp => cases hk

/-! ## `p()` and `v()` -/

/-- `p()` on a semaphore without an owner: the caller becomes the owner. -/
theorem p_free (hk : (σ.sem s).protocol.owned) (ho : (σ.sem s).owner = none) :
    σ.p s t =
      let rank := Function.update σ.priority t
        ((σ.sem s).protocol.taken (σ.ceiling s) (σ.priority t))
      ({ priority := rank
         sem := Function.update σ.sem s
          { σ.sem s with
            owner := some t
            priority := σ.priority t
            value := (σ.sem s).value - 1
            queue :=
              if (σ.sem s).value < 1 then (σ.sem s).queue.insertRank rank t
              else (σ.sem s).queue }
         store := σ.store },
       decide ((σ.sem s).value < 1)) := by
  obtain ⟨take, contend, hooks, heq⟩ := exists_hooks hk
  rw [(heq σ s t rfl).1]
  simp only [SemaphoreRT.p, ho, template_p_eq, hooks.take_eq]
  simp [modify, setOwner, setPriority, ceiling, Protocol.ne_msrp_of_owned hk]

/-- `p()` on a semaphore that `own` owns: the owner may be raised. -/
theorem p_owned (hk : (σ.sem s).protocol.owned) (ho : (σ.sem s).owner = some own) :
    σ.p s t =
      let rank := Function.update σ.priority own
        ((σ.sem s).protocol.contended (σ.ceiling s) (σ.priority own) (σ.priority t))
      ({ priority := rank
         sem := Function.update σ.sem s
          { σ.sem s with
            value := (σ.sem s).value - 1
            queue :=
              if (σ.sem s).value < 1 then (σ.sem s).queue.insertRank rank t
              else (σ.sem s).queue }
         store := σ.store },
       decide ((σ.sem s).value < 1)) := by
  obtain ⟨take, contend, hooks, heq⟩ := exists_hooks hk
  rw [(heq σ s t rfl).1]
  simp only [SemaphoreRT.p, ho, template_p_eq, hooks.contend_eq]
  simp [modify, setPriority, ceiling, ho, Protocol.ne_msrp_of_owned hk]
  rfl

/-- `v()` by the owner when no thread is queued. -/
theorem v_last (hk : (σ.sem s).protocol.owned) (ho : (σ.sem s).owner = some t)
    (hq : (σ.sem s).queue = []) :
    σ.v s t =
      ({ priority := Function.update σ.priority t (σ.sem s).priority
         sem := Function.update σ.sem s
          { σ.sem s with owner := none, priority := 0, value := (σ.sem s).value + 1 }
         store := σ.store },
       none) := by
  obtain ⟨take, contend, hooks, heq⟩ := exists_hooks hk
  rw [(heq σ s t rfl).2]
  simp only [SemaphoreRT.v, ho, template_v_eq, nextThread]
  simp [modify, setOwner, savePriority, setPriority, hq]

/-- `v()` by the owner when `next` heads the queue: `next` becomes the owner. -/
theorem v_handoff {next : Tid} {q : List Tid} (hk : (σ.sem s).protocol.owned)
    (ho : (σ.sem s).owner = some t) (hq : (σ.sem s).queue = next :: q) :
    σ.v s t =
      let rank := Function.update σ.priority t (σ.sem s).priority
      ({ priority := Function.update rank next
          ((σ.sem s).protocol.taken (σ.ceiling s) (rank next))
         sem := Function.update σ.sem s
          { σ.sem s with
            owner := some next
            priority := rank next
            value := (σ.sem s).value + 1
            queue := if (σ.sem s).value < 0 then q else next :: q }
         store := σ.store },
       if (σ.sem s).value < 0 then some next else none) := by
  obtain ⟨take, contend, hooks, heq⟩ := exists_hooks hk
  rw [(heq σ s t rfl).2]
  simp only [SemaphoreRT.v, ho, template_v_eq, nextThread]
  simp [modify, setOwner, setPriority, ceiling, hq, hooks.take_eq]

/-- `v()` by a thread that is not the owner only counts and wakes. -/
theorem v_other (hk : (σ.sem s).protocol.owned) (ho : (σ.sem s).owner ≠ some t) :
    σ.v s t =
      ({ priority := σ.priority
         sem := Function.update σ.sem s
          { σ.sem s with
            value := (σ.sem s).value + 1
            queue :=
              if (σ.sem s).value < 0 then (σ.sem s).queue.tail else (σ.sem s).queue }
         store := σ.store },
       if (σ.sem s).value < 0 then (σ.sem s).queue.head? else none) := by
  obtain ⟨take, contend, hooks, heq⟩ := exists_hooks hk
  rw [(heq σ s t rfl).2]
  simp only [SemaphoreRT.v, if_neg ho, template_v_eq]
  rfl

/-! ## Queues

What `p()` and `v()` of any class do to the queues of the synchronizers. -/

/-- The synchronizers agree on everything that the counter and the queue use. -/
structure SameQueues (σ σ' : Sync) (s : Sid) : Prop where
  protocol : (σ'.sem s).protocol = (σ.sem s).protocol
  value : (σ'.sem s).value = (σ.sem s).value
  queue : (σ'.sem s).queue = (σ.sem s).queue
  others : ∀ s', s' ≠ s → σ'.sem s' = σ.sem s'

theorem SameQueues.refl (σ : Sync) (s : Sid) : SameQueues σ σ s :=
  ⟨rfl, rfl, rfl, fun _ _ => rfl⟩

theorem SameQueues.trans {σ' σ'' : Sync} (h : SameQueues σ σ' s) (h' : SameQueues σ' σ'' s) :
    SameQueues σ σ'' s where
  protocol := h'.protocol.trans h.protocol
  value := h'.value.trans h.value
  queue := h'.queue.trans h.queue
  others s' hs := (h'.others s' hs).trans (h.others s' hs)

/-- A change of the other fields keeps the queues. -/
theorem SameQueues.modify {f : Semaphore → Semaphore}
    (hf : ∀ m, (f m).protocol = m.protocol ∧ (f m).value = m.value ∧ (f m).queue = m.queue) :
    SameQueues σ (σ.modify s f) s where
  protocol := by simp [(hf _).1]
  value := by simp [(hf _).2.1]
  queue := by simp [(hf _).2.2]
  others s' hs := by simp [hs]

/-- A change of the owner keeps the queues. -/
theorem SameQueues.setOwner (σ : Sync) (s : Sid) (own : Option Tid) :
    SameQueues σ (σ.setOwner s own) s :=
  .modify fun _ => ⟨rfl, rfl, rfl⟩

/-- Saving a priority keeps the queues. -/
theorem SameQueues.savePriority (σ : Sync) (s : Sid) (p : Int) :
    SameQueues σ (σ.modify s fun m => { m with priority := p }) s :=
  .modify fun _ => ⟨rfl, rfl, rfl⟩

/-- Setting a priority keeps the queues. -/
theorem SameQueues.setPriority {σ' : Sync} (h : SameQueues σ σ' s) (own : Tid) (p : Int) :
    SameQueues σ (σ'.setPriority own p) s :=
  ⟨h.protocol, h.value, h.queue, h.others⟩

/-- Taking a semaphore keeps the queues. -/
theorem Hooks.sameQueues_take {k : Protocol} {take : Sync → Sid → Tid → Sync}
    {contend : Sync → Sid → Tid → Tid → Sync} (h : Hooks k take contend) (σ : Sync) (s : Sid)
    (own : Tid) : SameQueues σ (take σ s own) s := by
  rw [h.take_eq]
  exact (SameQueues.savePriority σ s _).setPriority own _

/-- Before it counts, `p()` leaves the counters and queues alone. -/
theorem p_eq_template (h : (σ.sem s).protocol ≠ .condition) :
    ∃ σ', σ.p s t = SemaphoreTemplate.p σ' s t ∧ SameQueues σ σ' s := by
  by_cases hk : (σ.sem s).protocol.owned
  · obtain ⟨take, contend, hooks, heq⟩ := exists_hooks hk
    rw [(heq σ s t rfl).1]
    refine ⟨_, rfl, ?_⟩
    split
    · exact (SameQueues.setOwner σ s _).trans (hooks.sameQueues_take _ s t)
    · rw [hooks.contend_eq]
      exact (SameQueues.refl σ s).setPriority _ _
  · refine ⟨σ, ?_, .refl σ s⟩
    unfold Sync.p
    cases hp : (σ.sem s).protocol <;> simp_all [Protocol.owned]

/-- Before it counts, `v()` leaves the counters and queues alone. -/
theorem v_eq_template (h : (σ.sem s).protocol ≠ .condition) :
    ∃ σ', σ.v s t = SemaphoreTemplate.v σ' s ∧ SameQueues σ σ' s := by
  by_cases hk : (σ.sem s).protocol.owned
  · obtain ⟨take, contend, hooks, heq⟩ := exists_hooks hk
    rw [(heq σ s t rfl).2]
    refine ⟨_, rfl, ?_⟩
    have hset (p : Int) : SameQueues σ (σ.setPriority t p) s := (SameQueues.refl σ s).setPriority t p
    split
    · dsimp only
      split
      · exact ((hset _).trans (.setOwner _ s _)).trans (hooks.sameQueues_take _ s _)
      · exact ((hset _).trans (.setOwner _ s _)).trans (.savePriority _ s 0)
    · exact .refl σ s
  · refine ⟨σ, ?_, .refl σ s⟩
    unfold Sync.v
    cases hp : (σ.sem s).protocol <;> simp_all [Protocol.owned]

/-- `p()` queues the caller exactly if it sleeps, by the priorities that it leaves. -/
theorem p_queue (σ : Sync) (s : Sid) (t : Tid) (s' : Sid) :
    ((σ.p s t).1.sem s').queue =
      if s' = s ∧ (σ.p s t).2 then
        if (σ.sem s).protocol = .msrp then (σ.sem s).queue ++ [t]
        else (σ.sem s).queue.insertRank (σ.p s t).1.priority t
      else (σ.sem s').queue := by
  by_cases hc : (σ.sem s).protocol = .condition
  · rcases eq_or_ne s' s with rfl | hs <;> simp [Sync.p, enqueue, *]
  · obtain ⟨σ', heq, hq⟩ := p_eq_template (t := t) hc
    rw [heq, template_p_eq]
    rcases eq_or_ne s' s with rfl | hs
    · simp [hq.value, hq.queue, hq.protocol]
    · simp [hs, hq.others s' hs]

/-- `v()` takes at most the head of the queue of `s`. -/
theorem v_queue (σ : Sync) (s : Sid) (t : Tid) :
    (∀ s', s' ≠ s → ((σ.v s t).1.sem s').queue = (σ.sem s').queue) ∧
      (σ.sem s).queue = (σ.v s t).2.toList ++ ((σ.v s t).1.sem s).queue := by
  by_cases hc : (σ.sem s).protocol = .condition
  · constructor
    · intro s' hs
      simp [Sync.v, dequeue, hc, hs]
    · cases hq : (σ.sem s).queue <;> simp [Sync.v, dequeue, hc, hq]
  · obtain ⟨σ', heq, hsame⟩ := v_eq_template (t := t) hc
    rw [heq, template_v_eq]
    constructor
    · intro s' hs
      simp [hs, hsame.others s' hs]
    · rw [hsame.value, hsame.queue]
      split
      · cases hq : (σ.sem s).queue <;> simp [hsame.value, hsame.queue, *]
      · simp [hsame.value, hsame.queue, *]

/-- The counter of a semaphore that is below zero counts the queued threads. -/
def Counted (σ : Sync) : Prop :=
  ∀ s, (σ.sem s).protocol ≠ .condition → (σ.sem s).queue.length = (-(σ.sem s).value).toNat

/-- `p()` changes no protocol. -/
theorem p_protocol (σ : Sync) (s : Sid) (t : Tid) (s' : Sid) :
    ((σ.p s t).1.sem s').protocol = (σ.sem s').protocol := by
  by_cases hc : (σ.sem s).protocol = .condition
  · rcases eq_or_ne s' s with rfl | hs <;> simp [Sync.p, enqueue, *]
  · obtain ⟨σ', heq, hq⟩ := p_eq_template (t := t) hc
    rw [heq, template_p_eq]
    rcases eq_or_ne s' s with rfl | hs
    · simp [hq.protocol]
    · simp [hs, hq.others s' hs]

/-- `v()` changes no protocol. -/
theorem v_protocol (σ : Sync) (s : Sid) (t : Tid) (s' : Sid) :
    ((σ.v s t).1.sem s').protocol = (σ.sem s').protocol := by
  by_cases hc : (σ.sem s).protocol = .condition
  · rcases eq_or_ne s' s with rfl | hs <;> simp [Sync.v, dequeue, *]
  · obtain ⟨σ', heq, hq⟩ := v_eq_template (t := t) hc
    rw [heq, template_v_eq]
    rcases eq_or_ne s' s with rfl | hs
    · simp [hq.protocol]
    · simp [hs, hq.others s' hs]

/-- `p()` keeps the count of the queues. -/
theorem Counted.p (h : σ.Counted) : (σ.p s t).1.Counted := by
  intro s' hs'
  rw [p_protocol] at hs'
  have hold := h s' hs'
  by_cases hc : (σ.sem s).protocol = .condition
  · have hs : s' ≠ s := fun heq => hs' (heq ▸ hc)
    simpa [Sync.p, enqueue, hc, hs] using hold
  · obtain ⟨σ', heq, hq⟩ := p_eq_template (t := t) hc
    rw [heq, template_p_eq]
    by_cases hs : s' = s
    · subst hs
      simp only [modify_sem, Function.update_self, hq.value, hq.queue]
      split
      · split <;> simp <;> omega
      · omega
    · simpa [hs, hq.others s' hs] using hold

/-- `v()` keeps the count of the queues. -/
theorem Counted.v (h : σ.Counted) : (σ.v s t).1.Counted := by
  intro s' hs'
  rw [v_protocol] at hs'
  have hold := h s' hs'
  by_cases hc : (σ.sem s).protocol = .condition
  · have hs : s' ≠ s := fun heq => hs' (heq ▸ hc)
    simpa [Sync.v, dequeue, hc, hs] using hold
  · obtain ⟨σ', heq, hq⟩ := v_eq_template (t := t) hc
    rw [heq, template_v_eq]
    by_cases hs : s' = s
    · subst hs
      simp only [modify_sem, Function.update_self, hq.value, hq.queue]
      split
      · rw [List.length_tail]
        omega
      · omega
    · simpa [hs, hq.others s' hs] using hold

/-- Where nobody is woken up, nobody is queued. -/
theorem Counted.queue_nil (h : σ.Counted) (hs : (σ.sem s).protocol ≠ .condition)
    (hw : (σ.v s t).2 = none) : (σ.sem s).queue = [] := by
  obtain ⟨σ', heq, hq⟩ := v_eq_template (t := t) hs
  rw [heq, template_v_eq, hq.value, hq.queue] at hw
  have hlen := h s hs
  cases hqueue : (σ.sem s).queue with
  | nil => rfl
  | cons x xs =>
    rw [hqueue, List.length_cons] at hlen
    have hneg : (σ.sem s).value < 0 := by omega
    simp [hneg, hqueue] at hw

/-! ## Priorities -/

/-- `v()` wakes the head of the queue. -/
theorem Counted.v_woken (h : σ.Counted) : (σ.v s t).2 = (σ.sem s).queue.head? := by
  by_cases hc : (σ.sem s).protocol = .condition
  · simp [Sync.v, hc, dequeue]
  · obtain ⟨-, hq⟩ := v_queue σ s t
    cases hw : (σ.v s t).2 with
    | none => rw [h.queue_nil hc hw, List.head?_nil]
    | some u =>
      rw [hq, hw]
      rfl

/-- `p()` changes the rank of the caller, or the one of an owner that it raises. -/
theorem p_priority (σ : Sync) (s : Sid) (t : Tid) :
    (∃ r, (σ.p s t).1.priority = Function.update σ.priority t r) ∨
      ∃ own, (σ.sem s).protocol.owned ∧ (σ.sem s).owner = some own ∧
        (σ.p s t).1.priority = Function.update σ.priority own
          ((σ.sem s).protocol.contended (σ.ceiling s) (σ.priority own) (σ.priority t)) := by
  by_cases hk : (σ.sem s).protocol.owned
  · cases ho : (σ.sem s).owner with
    | none => exact .inl ⟨_, by rw [p_free hk ho]⟩
    | some own => exact .inr ⟨own, hk, rfl, by rw [p_owned hk ho]⟩
  · refine .inl ⟨σ.priority t, ?_⟩
    rw [Function.update_eq_self]
    unfold Sync.p
    cases hp : (σ.sem s).protocol <;> simp_all [Protocol.owned, template_p_eq, enqueue]

/-- `v()` changes the rank of the caller and of the thread at the head of the queue. -/
theorem v_priority {x : Tid} (hx : x ≠ t) (hq : (σ.sem s).queue.head? ≠ some x) :
    (σ.v s t).1.priority x = σ.priority x := by
  by_cases hk : (σ.sem s).protocol.owned
  · by_cases ho : (σ.sem s).owner = some t
    · cases hqueue : (σ.sem s).queue with
      | nil => simp [v_last hk ho hqueue, hx]
      | cons next q =>
        have hxn : x ≠ next := fun heq => hq (by simp [hqueue, heq])
        simp [v_handoff hk ho hqueue, hx, hxn]
    · rw [v_other hk ho]
  · unfold Sync.v
    cases hp : (σ.sem s).protocol <;> simp_all [Protocol.owned, template_v_eq, dequeue]

/-- `v()` on a condition changes no priority. -/
theorem v_priority_condition (hc : (σ.sem s).protocol = .condition) :
    (σ.v s t).1.priority = σ.priority := by
  simp [Sync.v, hc, dequeue]

/-- A synchronizer that is not owned changes itself only. -/
theorem p_of_not_owned (hk : ¬(σ.sem s).protocol.owned) :
    (σ.p s t).1.priority = σ.priority ∧ (σ.p s t).1.store = σ.store ∧
      ∀ s', s' ≠ s → (σ.p s t).1.sem s' = σ.sem s' := by
  unfold Sync.p
  cases hp : (σ.sem s).protocol <;> simp_all [Protocol.owned, template_p_eq, enqueue]

/-- `v()` on a semaphore without an owner only changes that semaphore. -/
theorem v_of_not_owned (hk : ¬(σ.sem s).protocol.owned) :
    (σ.v s t).1.priority = σ.priority ∧ (σ.v s t).1.store = σ.store ∧
      ∀ s', s' ≠ s → (σ.v s t).1.sem s' = σ.sem s' := by
  unfold Sync.v
  cases hp : (σ.sem s).protocol <;> simp_all [Protocol.owned, template_v_eq, dequeue]

/-- Where ceilings are kept and what is kept there does not depend on `p()`. -/
theorem p_ceilings (σ : Sync) (s : Sid) (t : Tid) (s' : Sid) :
    (σ.p s t).1.store = σ.store ∧ ((σ.p s t).1.sem s').ceilings = (σ.sem s').ceilings := by
  by_cases hk : (σ.sem s).protocol.owned
  · cases ho : (σ.sem s).owner with
    | none =>
      rw [p_free hk ho]
      by_cases hs : s' = s <;> simp [hs]
    | some own =>
      rw [p_owned hk ho]
      by_cases hs : s' = s <;> simp [hs]
  · refine ⟨(p_of_not_owned hk).2.1, ?_⟩
    by_cases hs : s' = s
    · subst hs
      unfold Sync.p
      cases hp : (σ.sem s').protocol <;> simp_all [Protocol.owned, template_p_eq, enqueue]
    · rw [(p_of_not_owned hk).2.2 s' hs]

/-- `v()` changes no ceiling. -/
theorem v_ceilings (σ : Sync) (s : Sid) (t : Tid) (s' : Sid) :
    (σ.v s t).1.store = σ.store ∧ ((σ.v s t).1.sem s').ceilings = (σ.sem s').ceilings := by
  by_cases hk : (σ.sem s).protocol.owned
  · by_cases ho : (σ.sem s).owner = some t
    · cases hq : (σ.sem s).queue with
      | nil =>
        rw [v_last hk ho hq]
        by_cases hs : s' = s <;> simp [hs]
      | cons next q =>
        rw [v_handoff hk ho hq]
        by_cases hs : s' = s <;> simp [hs]
    · rw [v_other hk ho]
      by_cases hs : s' = s <;> simp [hs]
  · refine ⟨(v_of_not_owned hk).2.1, ?_⟩
    by_cases hs : s' = s
    · subst hs
      unfold Sync.v
      cases hp : (σ.sem s').protocol <;> simp_all [Protocol.owned, template_v_eq, dequeue]
    · rw [(v_of_not_owned hk).2.2 s' hs]

end Sync

end Epos
