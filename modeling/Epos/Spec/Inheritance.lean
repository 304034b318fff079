import Epos.Spec.Restoration

/-!
# Priority inheritance

An owner should be at least as urgent as every thread waiting for it. A PIP
semaphore raises its direct owner only and restores, on `v()`, the priority that
it saved when it was taken. Both can leave an owner behind its waiters:

* the owner that is raised may itself wait in another queue, whose owner and
  order stay as they were;
* the owner may hold another semaphore with waiters that are more urgent than the
  priority being restored.

`Calls.KeepsInheritance` is the condition on a call, in the state before it, under
which neither happens. The runs in which owners are always urgent enough are
exactly the runs whose calls all meet it.
-/

namespace Epos

namespace Calls

variable {c : Calls} {s s' : Sid} {t own next : Tid} {q : List Tid}

/-- Every owner is at least as urgent as every thread waiting for it. -/
def Inherits (c : Calls) : Prop :=
  ∀ s own, (c.sem s).owner = some own → ∀ w ∈ (c.sem s).queue, c.priority own ≤ c.priority w

/-- A `p()` that raises an owner finds it waiting only for owners that are at least
    as urgent as the caller. A `v()` restores a priority that is at least as urgent
    as all waiters of the other semaphores that the caller owns, and the head of
    the queue is a most urgent waiter. -/
def KeepsInheritance (c : Calls) : CallAction → Prop
  | .p t s => ∀ own, (c.sem s).owner = some own → c.priority t < c.priority own →
      ∀ s' own', own ∈ (c.sem s').queue → (c.sem s').owner = some own' → own' ≠ own →
        c.priority own' ≤ c.priority t
  | .v t s =>
      (∀ s', s' ≠ s → (c.sem s').owner = some t →
        ∀ w ∈ (c.sem s').queue, (c.sem s).priority ≤ c.priority w) ∧
      ∀ next q, (c.sem s).queue = next :: q → ∀ w ∈ q, c.priority next ≤ c.priority w
  | .ret _ => True

theorem Inv.inherits_p_free (h : c.Inv) (hk : (c.sem s).protocol = .pip)
    (ho : (c.sem s).owner = none) (hin : c.Inherits) : (c.step (.p t s)).Inherits := by
  obtain ⟨-, hq⟩ := h.free s ho
  intro s' own hown w hw
  have hprio : (c.step (.p t s)).priority = c.priority := by
    simp [h.step_p_free ho, hk, Protocol.taken]
  rw [hprio]
  rcases eq_or_ne s' s with rfl | hs
  · simp [h.step_p_free ho, hq] at hw
  · exact hin s' own (by simpa [h.step_p_free ho, hs] using hown) w
      (by simpa [h.step_p_free ho, hs] using hw)

/-- What `p()` on an owned PIP semaphore leaves: the owner has the smaller of the
    two priorities and the caller has joined the queue. -/
theorem Inv.inherits_p_owned_iff (h : c.Inv) (hk : (c.sem s).protocol = .pip)
    (ho : (c.sem s).owner = some own) (hin : c.Inherits) :
    (c.step (.p t s)).Inherits ↔ c.KeepsInheritance (.p t s) := by
  have howner (x : Sid) : ((c.step (.p t s)).sem x).owner = (c.sem x).owner := by
    rw [h.step_p_owned ho]
    rcases eq_or_ne x s with rfl | hx <;> simp [*]
  have hqueue (x : Sid) (w : Tid) : w ∈ ((c.step (.p t s)).sem x).queue ↔
      (x = s ∧ w = t) ∨ w ∈ (c.sem x).queue := by
    rw [h.step_p_owned ho]
    rcases eq_or_ne x s with rfl | hx <;> simp [*]
  -- only the owner may be raised, to the priority of the caller
  have hprio (x : Tid) : (c.step (.p t s)).priority x =
      if x = own ∧ c.priority t < c.priority own then c.priority t else c.priority x := by
    rw [h.step_p_owned ho]
    rcases eq_or_ne x own with rfl | hx <;> simp [*, Protocol.contended]
  simp only [Inherits, KeepsInheritance, howner, hqueue, hprio]
  constructor
  · intro h' own₂ ho₂ hlt s' own' hmem hown' hne
    obtain rfl : own = own₂ := by rw [ho] at ho₂; exact Option.some.inj ho₂
    have := h' s' own' hown' own (.inr hmem)
    simpa [hne, hlt] using this
  · intro hkeep s' own' hown' w hw
    have hraise := hkeep own ho
    -- who waits is the caller, or it was in a queue already
    have hcase : w = t ∧ own' = own ∨ w ∈ (c.sem s').queue := by
      refine hw.imp_left ?_
      rintro ⟨rfl, rfl⟩
      rw [ho] at hown'
      exact ⟨rfl, (Option.some.inj hown').symm⟩
    rcases hcase with ⟨rfl, rfl⟩ | hmem
    · -- the caller against the owner that it may just have raised
      by_cases hlt : c.priority w < c.priority own'
      · simp [hlt]
      · simp only [hlt, and_false, if_false]
        omega
    · have hold := hin s' own' hown' w hmem
      by_cases hw : w = own ∧ c.priority t < c.priority own
      · obtain ⟨rfl, hlt⟩ := hw
        by_cases hne : own' = w
        · simp [hne]
        · simpa [hne, hlt] using hraise hlt s' own' hmem hown' hne
      · rw [if_neg hw]
        split
        · rename_i ho'
          rw [ho'.1] at hold
          omega
        · exact hold

/-- `v()` moves the caller's priority to the saved one and passes ownership to the
    head of the queue. -/
theorem Inv.inherits_v_iff (h : c.Inv) (hk : (c.sem s).protocol = .pip)
    (ht : c.pending t = none) (hs : s ∈ c.inside t) (hin : c.Inherits) :
    (c.step (.v t s)).Inherits ↔ c.KeepsInheritance (.v t s) := by
  have ho := h.owner_of_inside hs
  have hnq := h.not_queued ht
  have hother (x : Sid) (hx : x ≠ s) : (c.step (.v t s)).sem x = c.sem x := by
    cases hq : (c.sem s).queue with
    | nil => simp [h.step_v_last ho hq, hx]
    | cons next q => simp [h.step_v_handoff ho hq, hx]
  -- only the caller changes its priority, back to the saved one
  have hprio (x : Tid) : (c.step (.v t s)).priority x =
      if x = t then (c.sem s).priority else c.priority x := by
    cases hq : (c.sem s).queue with
    | nil => rw [h.step_v_last ho hq]; simp [Function.update_apply]
    | cons next q =>
      have hnt : next ≠ t := fun heq => hnq s (by simp [hq, heq])
      rw [h.step_v_handoff ho hq, hk]
      rcases eq_or_ne x next with rfl | hx
      · simp [Protocol.taken, hnt]
      · simp [Protocol.taken, hx, Function.update_apply]
  -- what the new owner has to fulfil is about the head and the rest of the old queue
  have hself : (∀ own, ((c.step (.v t s)).sem s).owner = some own →
        ∀ w ∈ ((c.step (.v t s)).sem s).queue, c.priority own ≤ c.priority w) ↔
      ∀ next q, (c.sem s).queue = next :: q → ∀ w ∈ q, c.priority next ≤ c.priority w := by
    cases hq : (c.sem s).queue with
    | nil => simp [h.step_v_last ho hq]
    | cons next q => simp [h.step_v_handoff ho hq]
  simp only [KeepsInheritance, ← hself]
  have hqueued (x : Sid) (w : Tid) (hw : w ∈ ((c.step (.v t s)).sem x).queue) :
      w ≠ t ∧ w ∈ (c.sem x).queue := by
    have hw' : w ∈ (c.sem x).queue := by
      rcases eq_or_ne x s with rfl | hx
      · cases hq : (c.sem x).queue with
        | nil => simp [h.step_v_last ho hq, hq] at hw
        | cons next q =>
          rw [h.step_v_handoff ho hq] at hw
          exact List.mem_cons_of_mem _ (by simpa using hw)
      · rwa [hother x hx] at hw
    exact ⟨fun heq => hnq x (heq ▸ hw'), hw'⟩
  have hnext : ((c.step (.v t s)).sem s).owner ≠ some t := by
    rw [(h.woken_eq_next hs).2]
    exact fun hn => hnq s (List.mem_of_head? hn)
  constructor
  · intro h'
    constructor
    · intro s' hs' hown w hw
      have := h' s' t (by rwa [hother s' hs']) w (by rwa [hother s' hs'])
      have hwt : w ≠ t := fun heq => hnq s' (heq ▸ hw)
      simpa [hprio, hwt] using this
    · intro own hown w hw
      have := h' s own hown w hw
      have hot : own ≠ t := fun heq => hnext (heq ▸ hown)
      simpa [hprio, hot, (hqueued s w hw).1] using this
  · rintro ⟨hrest, hhead⟩ s' own hown w hw
    obtain ⟨hwt, hw'⟩ := hqueued s' w hw
    rw [hprio, hprio, if_neg hwt]
    rcases eq_or_ne s' s with rfl | hs'
    · have hot : own ≠ t := fun heq => hnext (heq ▸ hown)
      rw [if_neg hot]
      exact hhead own hown w hw
    · rw [hother s' hs'] at hown
      split
      · rename_i hot
        subst hot
        exact hrest s' hs' hown w hw'
      · exact hin s' own hown w hw'

/-- One call keeps owners urgent enough exactly if it meets the condition. -/
theorem Inv.inherits_iff (h : c.Inv) (hk : ∀ s, (c.sem s).protocol = .pip) {a : CallAction}
    (ha : c.CanCall a) (hin : c.Inherits) :
    (c.step a).Inherits ↔ c.KeepsInheritance a := by
  cases a with
  | p t s =>
    cases ho : (c.sem s).owner with
    | none =>
      refine iff_of_true (h.inherits_p_free (hk s) ho hin) fun own ho' => ?_
      rw [ho] at ho'
      cases ho'
    | some own => exact h.inherits_p_owned_iff (hk s) ho hin
  | v t s => exact h.inherits_v_iff (hk s) ha.1 ha.2 hin
  | ret t =>
    obtain ⟨s, hw⟩ := ha
    refine iff_of_true ?_ trivial
    rw [step_ret hw]
    exact hin

end Calls

/-- Calls on PIP semaphores, each thread releasing what it acquired last. -/
def pipCalls : TransitionSystem Calls CallAction where
  Init c := c.Initial ∧ ∀ s, (c.sem s).protocol = .pip
  Enabled c a := c.CanCall a ∧ c.Lifo a
  next := Calls.step

instance (c : Calls) (a : CallAction) : Decidable (pipCalls.Enabled c a) :=
  inferInstanceAs (Decidable (c.CanCall a ∧ c.Lifo a))

theorem pipCalls_inv {c : Calls} (h : pipCalls.Init c) : c.Inv :=
  h.1.inv fun s => by rw [h.2]; rfl

/-- Along a run of nested calls, every owner stays at least as urgent as its waiters
    if and only if every call meets the condition. -/
theorem inherits_iff_keepsInheritance (c : Calls) (as : List CallAction)
    (hc : pipCalls.Init c) (hv : pipCalls.Valid c as) :
    pipCalls.Always Calls.Inherits c as ↔ pipCalls.Meets Calls.KeepsInheritance c as := by
  refine TransitionSystem.always_iff_meets
    (I := fun c => c.Inv ∧ ∀ s, (c.sem s).protocol = .pip) ?_ ?_ ⟨pipCalls_inv hc, hc.2⟩ ?_ hv
  · rintro c a ⟨hi, hk⟩ ⟨ha, -⟩
    refine ⟨hi.preserve ha, fun s => ?_⟩
    rw [show pipCalls.next c a = c.step a from rfl, hi.step_protocol ha, hk]
  · rintro c a ⟨hi, hk⟩ hin ⟨ha, -⟩
    exact hi.inherits_iff hk ha hin
  · intro s own ho
    rw [hc.1.owner] at ho
    cases ho

/-- The run of `not_inherits_of_reachable` is in the theorem's domain. -/
theorem inherits_iff_keepsInheritance_nested :
    pipCalls.Always Calls.Inherits (Calls.start (fun t => t) (fun _ => .pip) fun _ => 0)
        [.p 9 0, .p 9 1, .p 3 0, .v 9 1] ↔
      pipCalls.Meets Calls.KeepsInheritance (Calls.start (fun t => t) (fun _ => .pip) fun _ => 0)
        [.p 9 0, .p 9 1, .p 3 0, .v 9 1] :=
  inherits_iff_keepsInheritance _ _ ⟨Calls.start_initial _ _ _, fun _ => rfl⟩ (by decide)

/-- Thread 9 nests two semaphores and inherits from thread 3 through the outer one.
    Releasing the inner one gives it its old priority back while 3 still waits. -/
theorem not_inherits_of_reachable : ¬∀ c, pipCalls.Reachable c → c.Inherits := by
  intro h
  have hr : pipCalls.Reachable (pipCalls.run (Calls.start (fun t => t) (fun _ => .pip) fun _ => 0)
      [.p 9 0, .p 9 1, .p 3 0, .v 9 1]) :=
    TransitionSystem.Valid.reachable (by decide)
      (.init ⟨Calls.start_initial _ _ _, fun _ => rfl⟩)
  exact absurd (h _ hr 0 9 (by decide) 3 (by decide)) (by decide)

end Epos
