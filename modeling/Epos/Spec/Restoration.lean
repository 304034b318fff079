import Epos.Spec.Ownership

/-!
# Priority restoration

Every semaphore keeps one saved priority. A thread that nests critical sections
has a stack of them; only the one at the bottom is its base priority, and it is
the one that the last `v()` restores. The invariant `Calls.Restores` says exactly
that, for any mix of the four classes on the same threads.
-/

namespace Epos

namespace Calls

variable {c : Calls} {base : Tid → Int} {s s' : Sid} {t x own next : Tid} {q : List Tid}

/-- The semaphores that `t` owns, latest first: those it is inside of and, on top,
    the one that was handed to it in its sleep. -/
def holding (c : Calls) (t : Tid) : List Sid :=
  match c.pending t with
  | none => c.inside t
  | some s => if t ∈ (c.sem s).queue then c.inside t else s :: c.inside t

/-- A thread in no call holds what it is inside of. -/
theorem holding_of_pending_none (h : c.pending t = none) : c.holding t = c.inside t := by
  simp only [holding, h]

/-- A queued thread holds what it is inside of. -/
theorem holding_of_queued (hp : c.pending t = some s) (hq : t ∈ (c.sem s).queue) :
    c.holding t = c.inside t := by
  simp only [holding, hp, if_pos hq]

/-- A thread that was woken up holds its semaphore too. -/
theorem holding_of_woken (h : c.Woken t s) : c.holding t = s :: c.inside t := by
  simp only [holding, h.1, if_neg h.2]

/-- Who holds a semaphore is its owner. -/
theorem Inv.mem_holding (h : c.Inv) : s ∈ c.holding t ↔ (c.sem s).owner = some t := by
  rw [h.owner_iff s t]
  cases hp : c.pending t with
  | none => simp [holding_of_pending_none hp, Woken, hp]
  | some s' =>
    by_cases hq : t ∈ (c.sem s').queue
    · rw [holding_of_queued hp hq]
      simp only [Woken, hp, Option.some.injEq]
      refine ⟨.inl, fun hs => hs.resolve_right ?_⟩
      rintro ⟨rfl, hn⟩
      exact hn hq
    · rw [holding_of_woken ⟨hp, hq⟩]
      simp only [Woken, hp, Option.some.injEq, List.mem_cons]
      constructor
      · rintro (rfl | hs)
        · exact .inr ⟨rfl, hq⟩
        · exact .inl hs
      · rintro (hs | ⟨rfl, -⟩)
        · exact .inr hs
        · exact .inl rfl

/-- The bottom of every stack of saved priorities is the base priority, which is
    also the priority of a thread that owns nothing. -/
structure Restores (base : Tid → Int) (c : Calls) : Prop where
  bottom : ∀ t s, (c.holding t).getLast? = some s → (c.sem s).priority = base t
  free : ∀ t, c.holding t = [] → c.priority t = base t

/-- At the beginning there is nothing to restore. -/
theorem Initial.restores (h : c.Initial) : c.Restores c.priority where
  bottom t s hs := by
    rw [holding_of_pending_none (h.pending t), h.inside t] at hs
    cases hs
  free _ _ := rfl

/-- Pushing a semaphore whose saved priority is the thread's current one keeps the
    bottom of its stack. -/
theorem Restores.bottom_cons (hr : c.Restores base) (saved : Sid → Int)
    (hs : saved s = c.priority t) (hsame : ∀ s' ∈ c.holding t, saved s' = (c.sem s').priority)
    (hlast : (s :: c.holding t).getLast? = some s') : saved s' = base t := by
  cases hh : c.holding t with
  | nil =>
    rw [hh, List.getLast?_singleton, Option.some.injEq] at hlast
    rw [← hlast, hs, hr.free t hh]
  | cons a l =>
    rw [hh, List.getLast?_cons_cons, ← hh] at hlast
    rw [hsame s' (List.mem_of_getLast? hlast), hr.bottom t s' hlast]

/-! ## What a thread holds after each effect -/

/-- `p()` on a free semaphore adds it to what the thread holds. -/
theorem Inv.holding_p_free (h : c.Inv) (ht : c.pending t = none)
    (ho : (c.sem s).owner = none) (x : Tid) :
    (c.step (.p t s)).holding x = if x = t then s :: c.holding t else c.holding x := by
  obtain ⟨-, hq⟩ := h.free s ho
  rw [h.step_p_free ho, holding_of_pending_none ht]
  rcases eq_or_ne x t with rfl | hx
  · simp [holding, ht]
  · have hqs (s' : Sid) : (Function.update c.sem s
        { c.sem s with owner := some t, priority := c.priority t, value := 0 } s').queue =
        (c.sem s').queue := by
      rcases eq_or_ne s' s with rfl | hs <;> simp [*]
    simp only [holding, Function.update_of_ne hx, hqs, if_neg hx]

/-- `p()` on an owned one changes nothing. -/
theorem Inv.holding_p_owned (h : c.Inv) (ht : c.pending t = none)
    (ho : (c.sem s).owner = some own) (x : Tid) :
    (c.step (.p t s)).holding x = c.holding x := by
  rw [h.step_p_owned ho]
  rcases eq_or_ne x t with rfl | hx
  · rw [holding_of_pending_none ht]
    simp [holding]
  · simp only [holding, Function.update_of_ne hx]
    cases hp : c.pending x with
    | none => rfl
    | some s' => rcases eq_or_ne s' s with rfl | hs <;> simp [*]

/-- `v()` passes the semaphore to the next thread, if any. -/
theorem Inv.holding_v (h : c.Inv) (ht : c.pending t = none) (hs : s ∈ c.inside t) (x : Tid) :
    (c.step (.v t s)).holding x =
      if x = t then (c.holding t).erase s
      else if c.nextThread s = some x then s :: c.holding x
      else c.holding x := by
  have ho := h.owner_of_inside hs
  rw [holding_of_pending_none ht]
  cases hq : (c.sem s).queue with
  -- nobody waits: t gives the semaphore up and no other thread is touched
  | nil =>
    rw [h.step_v_last ho hq]
    rcases eq_or_ne x t with rfl | hx
    · simp [holding, ht]
    · simp only [holding, Function.update_of_ne hx, if_neg hx]
      cases hp : c.pending x with
      | none => simp [Sync.nextThread, hq]
      | some s' => rcases eq_or_ne s' s with rfl | hs' <;> simp [Sync.nextThread, *]
  | cons next q =>
    have hpend : c.pending next = some s := h.queue_pending s next (by simp [hq])
    -- the head of the queue becomes the owner, so t loses s and that thread gains it
    have hnd := h.queue_nodup s
    rw [hq, List.nodup_cons] at hnd
    rw [h.step_v_handoff ho hq]
    rcases eq_or_ne x t with rfl | hx
    · simp [holding, ht]
    · rcases eq_or_ne x next with rfl | hxn
      · simp [holding, hpend, hx, Sync.nextThread, hq, hnd.1]
      · simp only [holding, Function.update_of_ne hx, if_neg hx]
        cases hp : c.pending x with
        | none => simp [Sync.nextThread, hq, Ne.symm hxn]
        | some s' =>
          rcases eq_or_ne s' s with rfl | hs' <;> simp [Sync.nextThread, Ne.symm hxn, *]

/-- The return from `p()` changes nothing. -/
theorem holding_ret (hw : c.Woken t s) (x : Tid) :
    (c.step (.ret t)).holding x = c.holding x := by
  rw [step_ret hw]
  rcases eq_or_ne x t with rfl | hx
  · rw [holding_of_woken hw]
    simp [holding]
  · simp [holding, hx]

/-! ## Preservation -/

/-- `p()` on a free semaphore keeps what is to be restored. -/
theorem Restores.preserve_p_free (hr : c.Restores base) (h : c.Inv)
    (ht : c.pending t = none) (ho : (c.sem s).owner = none) :
    (c.step (.p t s)).Restores base := by
  have hhold := h.holding_p_free ht ho
  -- s was free, so nobody held it
  have hnot (x : Tid) : s ∉ c.holding x := by simp [h.mem_holding, ho]
  have hsaved (x : Tid) : ∀ s' ∈ c.holding x,
      ((c.step (.p t s)).sem s').priority = (c.sem s').priority := by
    intro s' hs'
    have hne : s' ≠ s := fun heq => hnot x (heq ▸ hs')
    simp [h.step_p_free ho, hne]
  constructor
  -- the priority saved at the bottom of the stack is the base
  case bottom =>
    intro x s' hlast
    rw [hhold] at hlast
    split at hlast
    · rename_i hx
      subst hx
      exact hr.bottom_cons (fun s' => ((c.step (.p x s)).sem s').priority)
        (by simp [h.step_p_free ho]) (hsaved x) hlast
    · rw [hsaved x s' (List.mem_of_getLast? hlast), hr.bottom x s' hlast]
  case free =>
    intro x hx
    rw [hhold] at hx
    split at hx
    · cases hx
    · rename_i hxt
      simpa [h.step_p_free ho, hxt] using hr.free x hx

/-- `p()` on an owned one keeps what is to be restored. -/
theorem Restores.preserve_p_owned (hr : c.Restores base) (h : c.Inv)
    (ht : c.pending t = none) (ho : (c.sem s).owner = some own) :
    (c.step (.p t s)).Restores base := by
  have hhold := h.holding_p_owned (t := t) ht ho
  have hsaved (s' : Sid) : ((c.step (.p t s)).sem s').priority = (c.sem s').priority := by
    rw [h.step_p_owned ho]
    rcases eq_or_ne s' s with rfl | hs <;> simp [*]
  constructor
  case bottom =>
    intro x s' hlast
    rw [hhold] at hlast
    rw [hsaved, hr.bottom x s' hlast]
  case free =>
    intro x hx
    rw [hhold] at hx
    -- only the owner's priority moves, and the owner holds `s`
    have hxo : x ≠ own := by
      rintro rfl
      have := h.mem_holding.mpr ho
      rw [hx] at this
      cases this
    simpa [h.step_p_owned ho, hxo] using hr.free x hx

/-- `v()` in the order of the nesting keeps what is to be restored. -/
theorem Restores.preserve_v (hr : c.Restores base) (h : c.Inv) (ht : c.pending t = none)
    (hs : (c.inside t).head? = some s) : (c.step (.v t s)).Restores base := by
  have hin : s ∈ c.inside t := List.mem_of_head? hs
  have ho := h.owner_of_inside hin
  have hhold := h.holding_v ht hin
  obtain ⟨rest, hrest⟩ : ∃ rest, c.holding t = s :: rest := by
    rw [holding_of_pending_none ht]
    exact List.head?_eq_some_iff.mp hs
  -- after the release `t` has the priority that `s` saved
  have hprio (x : Tid) (hx : c.nextThread s ≠ some x) : (c.step (.v t s)).priority x =
      if x = t then (c.sem s).priority else c.priority x := by
    cases hq : (c.sem s).queue with
    | nil =>
      rw [h.step_v_last ho hq]
      rcases eq_or_ne x t with rfl | hxt <;> simp [*]
    | cons next q =>
      have hxn : x ≠ next := by
        rintro rfl
        exact hx (by simp [Sync.nextThread, hq])
      rw [h.step_v_handoff ho hq]
      rcases eq_or_ne x t with rfl | hxt <;> simp [*]
  have hother (s' : Sid) (hs' : s' ≠ s) :
      ((c.step (.v t s)).sem s').priority = (c.sem s').priority := by
    cases hq : (c.sem s).queue with
    | nil => rw [h.step_v_last ho hq]; simp [hs']
    | cons next q => rw [h.step_v_handoff ho hq]; simp [hs']
  have hnt : c.nextThread s ≠ some t := fun hn =>
    h.not_queued ht s (List.mem_of_head? hn)
  have hnd := h.inside_nodup t
  rw [← holding_of_pending_none ht, hrest, List.nodup_cons] at hnd
  constructor
  case bottom =>
    intro x s' hlast
    rw [hhold] at hlast
    split at hlast
    · rename_i hx
      subst hx
      rw [hrest, List.erase_cons_head] at hlast
      have hmem := List.mem_of_getLast? hlast
      have hne : s' ≠ s := fun heq => hnd.1 (heq ▸ hmem)
      rw [hother s' hne]
      refine hr.bottom x s' ?_
      rw [hrest]
      cases rest with
      | nil => cases hmem
      | cons a l => rw [List.getLast?_cons_cons]; exact hlast
    · rename_i hxt
      split at hlast
      · -- `x` is the thread that `s` is handed to, still asleep
        rename_i hn
        obtain ⟨q, hq⟩ := List.head?_eq_some_iff.mp hn
        have hsx : s ∉ c.holding x := by
          rw [h.mem_holding, ho, Option.some.injEq]
          exact Ne.symm hxt
        refine hr.bottom_cons (fun s' => ((c.step (.v t s)).sem s').priority) ?_ ?_ hlast
        · simp [h.step_v_handoff ho hq, hxt]
        · exact fun s' hs' => hother s' fun heq => hsx (heq ▸ hs')
      · have hne : s' ≠ s := by
          rintro rfl
          have := h.mem_holding.mp (List.mem_of_getLast? hlast)
          rw [ho, Option.some.injEq] at this
          exact hxt this.symm
        rw [hother s' hne, hr.bottom x s' hlast]
  case free =>
    intro x hx
    rw [hhold] at hx
    split at hx
    · rename_i hxt
      subst hxt
      rw [hprio x hnt, if_pos rfl]
      rw [hrest, List.erase_cons_head] at hx
      exact hr.bottom x s (by rw [hrest, hx]; rfl)
    · rename_i hxt
      split at hx
      · cases hx
      · rename_i hn
        rw [hprio x hn, if_neg hxt, hr.free x hx]

/-- The return keeps what is to be restored. -/
theorem Restores.preserve_ret (hr : c.Restores base) (hw : c.Woken t s) :
    (c.step (.ret t)).Restores base := by
  have hhold := holding_ret hw
  have hsame : (c.step (.ret t)).toSync = c.toSync := by rw [step_ret hw]
  constructor
  case bottom =>
    intro x s' hlast
    rw [hhold] at hlast
    rw [hsame]
    exact hr.bottom x s' hlast
  case free =>
    intro x hx
    rw [hhold] at hx
    rw [hsame]
    exact hr.free x hx

end Calls

/-- Well bracketed calls by threads of the given base priorities. -/
def nestedCalls (base : Tid → Int) : TransitionSystem Calls CallAction where
  Init c := c.Initial ∧ (∀ s, (c.sem s).protocol.owned) ∧ c.priority = base
  Enabled c a := c.CanCall a ∧ c.Nested a
  next := Calls.step

instance (base : Tid → Int) (c : Calls) (a : CallAction) :
    Decidable ((nestedCalls base).Enabled c a) :=
  inferInstanceAs (Decidable (c.CanCall a ∧ c.Nested a))

/-- The invariant holds along every run of nested calls. -/
theorem nestedCalls_inv {base : Tid → Int} {c : Calls} (h : (nestedCalls base).Reachable c) :
    c.Inv ∧ c.Restores base := by
  refine h.invariant (I := fun c => c.Inv ∧ c.Restores base) ?_ ?_
  · rintro c ⟨h₀, hk, rfl⟩
    exact ⟨h₀.inv hk, h₀.restores⟩
  · rintro c a ⟨hi, hr⟩ ⟨ha, hnest⟩
    refine ⟨hi.preserve ha, ?_⟩
    cases a with
    | p t s =>
      cases ho : (c.sem s).owner with
      | none => exact hr.preserve_p_free hi ha ho
      | some own => exact hr.preserve_p_owned hi ha ho
    | v t s => exact hr.preserve_v hi ha.1 hnest
    | ret t =>
      obtain ⟨s, hw⟩ := ha
      exact hr.preserve_ret hw

/-- A thread that owns no semaphore has its base priority, whether it is running,
    ready or waiting for one. -/
theorem priority_eq_base_of_owns_none (base : Tid → Int) (c : Calls)
    (h : (nestedCalls base).Reachable c) (t : Tid) (ht : ∀ s, (c.sem s).owner ≠ some t) :
    c.priority t = base t := by
  obtain ⟨hi, hr⟩ := nestedCalls_inv h
  refine hr.free t (List.eq_nil_iff_forall_not_mem.mpr fun s hs => ?_)
  exact ht s (hi.mem_holding.mp hs)

namespace Calls

/-- A PIP, an IPCP, a PCP and an MPCP semaphore. -/
def mixedClasses : Sid → Protocol
  | 0 => .pip
  | 1 => .ipcp
  | 2 => .pcp
  | _ => .mpcp 50000

/-- Thread 9 nests all four classes, inherits in the middle and releases them all. -/
def nestedRun : Calls :=
  (nestedCalls fun t => t).run (start (fun t => t) mixedClasses fun _ => 2)
    [.p 9 0, .p 9 2, .p 9 1, .p 4 0, .p 9 3, .v 9 3, .v 9 1, .p 5 2, .v 9 2, .v 9 0]

end Calls

/-- A run with all four classes. -/
theorem priority_eq_base_of_owns_none_mixed : Calls.nestedRun.priority 9 = 9 := by
  have hk : ∀ s, (Calls.mixedClasses s).owned
    | 0 | 1 | 2 | _ + 3 => rfl
  have hr : (nestedCalls fun t => t).Reachable Calls.nestedRun :=
    TransitionSystem.Valid.reachable (by decide)
      (.init ⟨Calls.start_initial _ _ _, hk, rfl⟩)
  refine priority_eq_base_of_owns_none _ _ hr 9 fun s hs => ?_
  have hmem := (nestedCalls_inv hr).1.mem_holding.mpr hs
  have hnil : Calls.nestedRun.holding 9 = [] := by decide
  rw [hnil] at hmem
  cases hmem

end Epos
