import Epos.Spec.Ownership

/-!
# PCP: the owner is at the ceiling while others wait

`p()` on an owned PCP semaphore raises the owner to the ceiling. `v()` hands the
semaphore to the head of the queue and leaves the new owner's priority alone, also
when other threads stay queued. In non-nested use the owner is at the ceiling in
all states of a run exactly when every thread that is handed a semaphore with
threads left in its queue already has a priority at the ceiling.
-/

namespace Epos

namespace Calls

variable {c : Calls} {s s' : Sid} {t own next : Tid} {q : List Tid}

/-- The owner of a semaphore that some thread waits for is at least as urgent as
    the semaphore's ceiling. -/
def AtCeiling (c : Calls) : Prop :=
  ∀ s own, (c.sem s).owner = some own → (c.sem s).queue ≠ [] → c.priority own ≤ c.ceiling s

/-- A `v()` that leaves threads queued hands over to a thread at the ceiling. -/
def HandsOverAtCeiling (c : Calls) : CallAction → Prop
  | .v _ s => ∀ next q, (c.sem s).queue = next :: q → q ≠ [] → c.priority next ≤ c.ceiling s
  | .p _ _ | .ret _ => True

/-- A thread holds at most one semaphore and none while it waits for another. -/
structure Flat (c : Calls) : Prop where
  pending : ∀ t, c.pending t ≠ none → c.inside t = []
  inside : ∀ t, (c.inside t).length ≤ 1

/-- Non-nested use: `p()` is called by threads that hold nothing. -/
def HoldsNone (c : Calls) : CallAction → Prop
  | .p t _ => c.inside t = []
  | .v _ _ | .ret _ => True

instance (c : Calls) (a : CallAction) : Decidable (c.HoldsNone a) :=
  match a with
  | .p t _ => inferInstanceAs (Decidable (c.inside t = []))
  | .v _ _ | .ret _ => isTrue trivial

theorem Flat.preserve (hf : c.Flat) (h : c.Inv) {a : CallAction} (ha : c.CanCall a)
    (hn : c.HoldsNone a) : (c.step a).Flat := by
  cases a with
  | p t s =>
    -- the caller holds nothing, so it is flat with `s` and may wait for it
    replace hn : c.inside t = [] := hn
    cases ho : (c.sem s).owner with
    | none =>
      rw [h.step_p_free ho]
      constructor
      · intro x hx
        have hxt : x ≠ t := fun heq => hx (heq ▸ ha)
        simpa [hxt] using hf.pending x hx
      · intro x
        rcases eq_or_ne x t with rfl | hxt
        · simp [hn]
        · simpa [hxt] using hf.inside x
    | some own =>
      rw [h.step_p_owned ho]
      constructor
      · intro x hx
        rcases eq_or_ne x t with rfl | hxt
        · exact hn
        · exact hf.pending x (by simpa [hxt] using hx)
      · exact hf.inside
  | v t s =>
    have hinside : (c.step (.v t s)).inside =
        Function.update c.inside t ((c.inside t).erase s) := rfl
    have hpending : (c.step (.v t s)).pending = c.pending := rfl
    constructor
    · intro x hx
      rw [hpending] at hx
      have hxt : x ≠ t := fun heq => hx (heq ▸ ha.1)
      simpa [hinside, hxt] using hf.pending x hx
    · intro x
      rw [hinside]
      rcases eq_or_ne x t with rfl | hxt
      · rw [Function.update_self]
        exact (List.length_erase_le).trans (hf.inside x)
      · simpa [hxt] using hf.inside x
  | ret t =>
    obtain ⟨s, hw⟩ := ha
    have hnil : c.inside t = [] := hf.pending t (by simp [hw.1])
    rw [step_ret hw]
    constructor
    · intro x hx
      rcases eq_or_ne x t with rfl | hxt
      · simp at hx
      · simpa [hxt] using hf.pending x (by simpa [hxt] using hx)
    · intro x
      rcases eq_or_ne x t with rfl | hxt
      · simp [hnil]
      · simpa [hxt] using hf.inside x

/-- The caller of `v()` owns nothing else. -/
theorem Flat.owner_unique (hf : c.Flat) (h : c.Inv) (ht : c.pending t = none)
    (hs : s ∈ c.inside t) (ho : (c.sem s').owner = some t) : s' = s := by
  have hs' : s' ∈ c.inside t := ((h.owner_iff s' t).mp ho).resolve_right (Inv.not_woken ht s')
  obtain ⟨x, hx⟩ : ∃ x, c.inside t = [x] :=
    List.length_eq_one_iff.mp (Nat.le_antisymm (hf.inside t) (List.length_pos_of_mem hs))
  rw [hx, List.mem_singleton] at hs hs'
  rw [hs, hs']

theorem Inv.atCeiling_p (h : c.Inv) (hk : (c.sem s).protocol = .pcp) (ha : c.pending t = none)
    (hc : c.AtCeiling) : (c.step (.p t s)).AtCeiling := by
  intro s' x hx hq
  rw [h.step_ceiling (a := .p t s) ha s']
  cases ho : (c.sem s).owner with
  | none =>
    obtain ⟨-, hnil⟩ := h.free s ho
    rw [h.step_p_free ho] at hx hq ⊢
    have hs : s' ≠ s := by
      rintro rfl
      simp [hnil] at hq
    simpa [hk, Protocol.taken] using
      hc s' x (by simpa [hs] using hx) (by simpa [hs] using hq)
  | some own =>
    rw [h.step_p_owned ho] at hx hq ⊢
    -- the step lowers `own` to the ceiling of `s` at most, and nobody else
    by_cases hs : s' = s
    · subst hs
      obtain rfl : own = x := by simpa [ho] using hx
      simp only [hk, Protocol.contended, Function.update_self]
      split <;> omega
    · have hold := hc s' x (by simpa [hs] using hx) (by simpa [hs] using hq)
      by_cases hxo : x = own
      · subst hxo
        have := Protocol.contended_le (c.ceiling s) (c.priority x) (c.priority t) .pcp
        simp only [hk, Function.update_self]
        omega
      · simpa [hxo] using hold

theorem Inv.atCeiling_v_iff (h : c.Inv) (hf : c.Flat) (hk : (c.sem s).protocol = .pcp)
    (ht : c.pending t = none) (hs : s ∈ c.inside t) (hc : c.AtCeiling) :
    (c.step (.v t s)).AtCeiling ↔ c.HandsOverAtCeiling (.v t s) := by
  have ho := h.owner_of_inside hs
  have hceil := h.step_ceiling (a := .v t s) ⟨ht, hs⟩
  simp only [AtCeiling, HandsOverAtCeiling, hceil]
  cases hq : (c.sem s).queue with
  | nil =>
    refine iff_of_true (fun s' own hown hne => ?_) (fun next q hnil => by cases hnil)
    rw [h.step_v_last ho hq] at hown hne ⊢
    have hs' : s' ≠ s := by
      rintro rfl
      simp at hown
    have hown : (c.sem s').owner = some own := by simpa [hs'] using hown
    have hot : own ≠ t := fun heq => hs' (hf.owner_unique h ht hs (heq ▸ hown))
    simpa [hot] using hc s' own hown (by simpa [hs'] using hne)
  | cons next q =>
    -- The next owner keeps the rank that it was queued with.
    have hnt : next ≠ t := fun heq => h.not_queued ht s (by simp [hq, heq])
    simp only [h.step_v_handoff ho hq, hk, Protocol.taken]
    constructor
    · intro h' next' q' heq hne
      obtain ⟨rfl, rfl⟩ := List.cons.inj heq
      simpa [hnt] using h' s next (by simp) (by simpa using hne)
    · intro h' s' own hown hne
      by_cases hs' : s' = s
      · subst hs'
        obtain rfl : next = own := by simpa using hown
        simpa [hnt] using h' next q rfl (by simpa using hne)
      · have hown : (c.sem s').owner = some own := by simpa [hs'] using hown
        have hot : own ≠ t := fun heq => hs' (hf.owner_unique h ht hs (heq ▸ hown))
        have hold := hc s' own hown (by simpa [hs'] using hne)
        by_cases hon : own = next
        · subst hon
          simpa [hot] using hold
        · simpa [hot, hon] using hold

end Calls

/-- Non-nested calls on PCP semaphores. -/
def pcpCalls : TransitionSystem Calls CallAction where
  Init c := c.Initial ∧ ∀ s, (c.sem s).protocol = .pcp
  Enabled c a := c.CanCall a ∧ c.HoldsNone a
  next := Calls.step

instance (c : Calls) (a : CallAction) : Decidable (pcpCalls.Enabled c a) :=
  inferInstanceAs (Decidable (c.CanCall a ∧ c.HoldsNone a))

/-- Along a run of non-nested calls, contended owners stay at the ceiling if and
    only if every hand-off that leaves threads queued goes to a thread at the
    ceiling. -/
theorem atCeiling_iff_handsOverAtCeiling (c : Calls) (as : List CallAction)
    (hc : pcpCalls.Init c) (hv : pcpCalls.Valid c as) :
    pcpCalls.Always Calls.AtCeiling c as ↔ pcpCalls.Meets Calls.HandsOverAtCeiling c as := by
  have hflat : c.Flat := ⟨fun t _ => hc.1.inside t, fun t => by simp [hc.1.inside]⟩
  have hinv : c.Inv := hc.1.inv fun s => by rw [hc.2]; rfl
  refine TransitionSystem.always_iff_meets
    (I := fun c => (c.Inv ∧ c.Flat) ∧ ∀ s, (c.sem s).protocol = .pcp)
    ?_ ?_ ⟨⟨hinv, hflat⟩, hc.2⟩ ?_ hv
  · rintro c a ⟨⟨hi, hf⟩, hk⟩ ⟨ha, hn⟩
    refine ⟨⟨hi.preserve ha, hf.preserve hi ha hn⟩, fun s => ?_⟩
    rw [show pcpCalls.next c a = c.step a from rfl, hi.step_protocol ha, hk]
  · rintro c a ⟨⟨hi, hf⟩, hk⟩ hin ⟨ha, -⟩
    cases a with
    | p t s => exact iff_of_true (hi.atCeiling_p (hk s) ha hin) trivial
    | v t s => exact hi.atCeiling_v_iff hf (hk s) ha.1 ha.2 hin
    | ret t =>
      obtain ⟨s, hw⟩ := ha
      refine iff_of_true ?_ trivial
      rw [show pcpCalls.next c (.ret t) = c.step (.ret t) from rfl, Calls.step_ret hw]
      exact hin
  · intro s own ho
    rw [hc.1.owner] at ho
    cases ho

theorem atCeiling_iff_handsOverAtCeiling_contended :
    pcpCalls.Always Calls.AtCeiling (Calls.start (fun t => t) (fun _ => .pcp) fun _ => 2)
        [.p 9 0, .p 5 0, .p 7 0, .v 9 0] ↔
      pcpCalls.Meets Calls.HandsOverAtCeiling
        (Calls.start (fun t => t) (fun _ => .pcp) fun _ => 2)
        [.p 9 0, .p 5 0, .p 7 0, .v 9 0] :=
  atCeiling_iff_handsOverAtCeiling _ _ ⟨Calls.start_initial _ _ _, fun _ => rfl⟩ (by decide)

/-- Thread 9 hands the semaphore of ceiling 2 over to thread 5 while thread 7 still
    waits: 5 owns it at its own priority. -/
theorem not_atCeiling_of_reachable : ¬∀ c, pcpCalls.Reachable c → c.AtCeiling := by
  intro h
  have hr : pcpCalls.Reachable (pcpCalls.run (Calls.start (fun t => t) (fun _ => .pcp) fun _ => 2)
      [.p 9 0, .p 5 0, .p 7 0, .v 9 0]) :=
    TransitionSystem.Valid.reachable (by decide)
      (.init ⟨Calls.start_initial _ _ _, fun _ => rfl⟩)
  exact absurd (h _ hr 0 5 (by decide) (by decide)) (by decide)

end Epos
