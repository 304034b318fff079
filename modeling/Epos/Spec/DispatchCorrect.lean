import Epos.Kernel.Dispatch
import Epos.Spec.SchedulingListCorrect

/-!
# No thread on two CPUs

Between the release of `_lock` and the end of `switch_context()`, `prev` is in a list
already and its context is not saved yet. With a list of its own, the CPU that could
choose it is the one that is about to save it. Where CPUs share a list, another one may
take it first.
-/

namespace Epos

namespace MulticoreCriterion

/-- Different CPUs have different heads. -/
theorem head_inj {k : MulticoreCriterion} {c c' : Nat}
    (hq : k.currentQueue c = k.currentQueue c') (hh : k.currentHead c = k.currentHead c') :
    c = c' := by
  cases k with
  | cedf =>
    simp only [currentQueue, currentHead, heads] at hq hh
    omega
  | grr => exact hh
  | gedf => exact hh
  | cpuAffinity => exact hq
  | prm => exact hq
  | pedf => exact hq

/-- With partitioned criteria every CPU has a list of its own. -/
theorem queue_inj {k : MulticoreCriterion} (hk : k.partitioned = true) {c c' : Nat}
    (hq : k.currentQueue c = k.currentQueue c') : c = c' := by
  cases k with
  | cpuAffinity => exact hq
  | prm => exact hq
  | pedf => exact hq
  | grr => cases hk
  | gedf => cases hk
  | cedf => cases hk

end MulticoreCriterion

/-- Another thread than the chosen one is chosen if it is at the head of the list and not
    less urgent. -/
theorem SchedulingList.choose_other {rank : Tid → Int} {eligible : Tid → Bool}
    {l : SchedulingList} {e y : Tid} (hc : l.chosen = some e)
    (hy : (l.choose rank eligible).chosen = some y) (hne : y ≠ e) :
    l.list.head? = some y ∧ rank y ≤ rank e := by
  unfold choose at hy
  rw [hc] at hy
  cases hl : l.list with
  | nil =>
    simp only [hl, hc, Option.some.injEq] at hy
    exact absurd hy.symm hne
  | cons h q =>
    simp only [hl] at hy
    split at hy
    · rw [List.insertRank_cons] at hy
      split at hy
      · rename_i hle
        cases hy
        exact ⟨rfl, hle⟩
      · cases hy
        exact absurd rfl hne
    · rw [hc] at hy
      cases hy
      exact absurd rfl hne

namespace Dispatching

variable {s : Dispatching} {place : Tid → Place} {c c' : Nat} {t prev next : Tid}
  {p : SwitchPoint} {rank : Tid → Int} {eligible : Tid → Bool}

/-! ## Choosing -/

/-- What `choose()` does to the current list and head of the CPU. -/
def chooses (s : Dispatching) (c : Nat) (rank : Tid → Int) (eligible : Tid → Bool) :
    SchedulingList :=
  ((s.list c).current (s.criterion.currentHead c)).choose rank
    (if s.criterion.partitioned then eligible else fun _ => true)

/-- `choose()` changes the list of its CPU. -/
theorem choose_list (q : Nat) : ((s.choose c rank eligible).lists q).list =
    if q = s.criterion.currentQueue c then (s.chooses c rank eligible).list
    else (s.lists q).list := by
  unfold choose
  dsimp only
  rw [Function.update_apply]
  split <;> rfl

/-- `choose()` changes who is chosen on its CPU. -/
theorem choose_running_self :
    (s.choose c rank eligible).running c = (s.chooses c rank eligible).chosen := by
  unfold choose running list
  dsimp only
  rw [Function.update_self]
  exact Function.update_self _ _ _

/-- `choose()` changes nobody on the other CPUs. -/
theorem choose_running_of_ne (h : c' ≠ c) :
    (s.choose c rank eligible).running c' = s.running c' := by
  unfold choose running list
  dsimp only
  by_cases hq : s.criterion.currentQueue c' = s.criterion.currentQueue c
  · have hh : s.criterion.currentHead c' ≠ s.criterion.currentHead c := fun hh =>
      h (MulticoreCriterion.head_inj hq hh)
    rw [hq, Function.update_self]
    exact Function.update_of_ne hh _ _
  · rw [Function.update_of_ne hq]

/-- Where the threads are after `choose()`. -/
def moved (s : Dispatching) (place : Tid → Place) (c : Nat) (prev next : Tid) : Tid → Place :=
  Function.update (Function.update place prev (.queue (s.criterion.currentQueue c))) next (.head c)

/-- Where a thread is after a switch. -/
theorem moved_eq (x : Tid) : s.moved place c prev next x =
    if x = next then .head c
    else if x = prev then .queue (s.criterion.currentQueue c) else place x := by
  unfold moved
  rw [Function.update_apply, Function.update_apply]

/-- The next thread comes from the head of the list, if it is not the previous one. -/
theorem Located.choose (h : s.Located place) (hc : c < s.cpus) (hprev : s.running c = some prev)
    (rank : Tid → Int) (eligible : Tid → Bool) :
    ∃ next, (s.choose c rank eligible).running c = some next ∧
      (s.choose c rank eligible).Located (s.moved place c prev next) ∧
      (next ≠ prev → (s.list c).list.head? = some next ∧ rank next ≤ rank prev) := by
  have hchosen : ((s.list c).current (s.criterion.currentHead c)).chosen = some prev := hprev
  have hsome : (s.chooses c rank eligible).chosen.isSome :=
    SchedulingList.choose_isSome (by rw [hchosen]; rfl)
  obtain ⟨next, hnext⟩ := Option.isSome_iff_exists.mp hsome
  have hplace : place prev = .head c := (h.headed c hc prev).mp hprev
  -- the chosen thread and the listed ones are the same as before
  have hnodup : (prev :: (s.list c).list).Nodup := by
    refine List.nodup_cons.mpr ⟨fun hin => ?_, h.nodup _⟩
    rw [(h.listed _ prev).mp hin] at hplace
    cases hplace
  have hperm : (next :: (s.chooses c rank eligible).list).Perm (prev :: (s.list c).list) := by
    have hperm : (s.chooses c rank eligible).toList.Perm
        ((s.list c).current (s.criterion.currentHead c)).toList := SchedulingList.choose_perm
    have hto : (s.chooses c rank eligible).toList = next :: (s.chooses c rank eligible).list := by
      rw [SchedulingList.toList, hnext]
      rfl
    have hto' : ((s.list c).current (s.criterion.currentHead c)).toList =
        prev :: (s.list c).list := by
      rw [SchedulingList.toList, hchosen]
      rfl
    rw [← hto, ← hto']
    exact hperm
  have hnodup' := hperm.nodup_iff.mpr hnodup
  have hmem (x : Tid) : x ∈ (s.chooses c rank eligible).list ↔
      (x = prev ∨ place x = .queue (s.criterion.currentQueue c)) ∧ x ≠ next := by
    have hx := hperm.mem_iff (a := x)
    have hlisted := h.listed (s.criterion.currentQueue c) x
    have hnot := (List.nodup_cons.mp hnodup').1
    rw [List.mem_cons, List.mem_cons] at hx
    rw [← hlisted]
    constructor
    · intro hin
      exact ⟨hx.mp (.inr hin), fun heq => hnot (heq ▸ hin)⟩
    · intro hin
      exact (hx.mpr hin.1).resolve_left hin.2
  have hnextPlace : next = prev ∨ place next = .queue (s.criterion.currentQueue c) := by
    have hx := hperm.mem_iff (a := next)
    rw [List.mem_cons, List.mem_cons] at hx
    exact (hx.mp (.inl rfl)).imp_right (h.listed _ next).mp
  refine ⟨next, choose_running_self.trans hnext, ⟨fun q t => ?_, fun q => ?_, fun c' hc' t => ?_,
    fun c' hc' => ?_⟩, SchedulingList.choose_other hchosen hnext⟩
  · rw [choose_list, moved_eq]
    by_cases hq : q = s.criterion.currentQueue c
    · rw [if_pos hq, hmem, hq]
      by_cases ht : t = next
      · simp [ht]
      · by_cases htp : t = prev <;> simp [ht, htp]
    · rw [if_neg hq, h.listed]
      by_cases ht : t = next
      · rw [if_pos ht]
        refine iff_of_false (fun hin => ?_) (by simp)
        cases hnextPlace with
        | inl heq =>
          rw [ht, heq, hplace] at hin
          cases hin
        | inr heq =>
          rw [ht, heq] at hin
          exact hq (Place.queue.inj hin).symm
      · rw [if_neg ht]
        by_cases htp : t = prev
        · rw [if_pos htp, htp, hplace]
          exact iff_of_false (by simp) fun heq => hq (Place.queue.inj heq).symm
        · rw [if_neg htp]
  · rw [choose_list]
    split
    · exact (List.nodup_cons.mp hnodup').2
    · exact h.nodup q
  · rw [moved_eq]
    by_cases hcc : c' = c
    · rw [hcc, choose_running_self, hnext]
      by_cases ht : t = next
      · simp [ht]
      · rw [if_neg ht]
        refine iff_of_false (fun heq => ht (Option.some.inj heq).symm) fun heq => ?_
        split at heq
        · cases heq
        · rename_i htp
          have hrun := (h.headed c hc t).mpr heq
          exact htp (Option.some.inj (hrun.symm.trans hprev))
    · rw [choose_running_of_ne hcc, h.headed c' hc' t]
      by_cases ht : t = next
      · rw [if_pos ht, ht]
        refine iff_of_false (fun heq => ?_) fun heq => hcc (Place.head.inj heq).symm
        cases hnextPlace with
        | inl hp =>
          rw [hp, hplace] at heq
          exact hcc (Place.head.inj heq).symm
        | inr hp =>
          rw [hp] at heq
          cases heq
      · rw [if_neg ht]
        by_cases htp : t = prev
        · rw [if_pos htp, htp, hplace]
          exact iff_of_false (fun heq => hcc (Place.head.inj heq).symm) (by simp)
        · rw [if_neg htp]
  · by_cases hcc : c' = c
    · rw [hcc, choose_running_self]
      exact hsome
    · rw [choose_running_of_ne hcc]
      exact h.occupied c' hc'

/-! ## The invariant -/

/-- What is true of a CPU at its point of `reschedule()`. -/
def At (s : Dispatching) (place : Tid → Place) (c : Nat) : SwitchPoint → Prop
  | .thread | .locked | .same => s.executes c = s.running c
  | .updated prev next | .released prev next =>
    s.executes c = some prev ∧ s.running c = some next ∧ s.saved next = true ∧
      place prev = .queue (s.criterion.currentQueue c)
  | .saved next => s.executes c = none ∧ s.running c = some next ∧ s.saved next = true

/-- No thread is executed on two CPUs. -/
def NoneTwice (s : Dispatching) : Prop :=
  ∀ c < s.cpus, ∀ c' < s.cpus, c ≠ c' → ∀ t, s.executes c = some t → s.executes c' ≠ some t

structure Inv (s : Dispatching) (place : Tid → Place) : Prop where
  located : s.Located place
  points : ∀ c < s.cpus, s.At place c (s.point c)
  saved : ∀ t, s.saved t = false ↔ ∃ c < s.cpus, s.executes c = some t
  none_twice : s.NoneTwice

/-- The thread that may be chosen in place of the running one has been saved, or each CPU
    has a list of its own. -/
def ChoosesSaved (s : Dispatching) : SwitchAction → Prop
  | .choose c rank _ =>
    s.criterion.partitioned = true ∨
      ∀ next ∈ (s.list c).list.head?, (∀ prev ∈ s.running c, rank next ≤ rank prev) →
        s.saved next = true
  | _ => True

/-- A context is loaded after it has been saved. -/
def LoadsSaved (s : Dispatching) : SwitchAction → Prop
  | .load c => ∀ next, s.point c = .saved next → s.saved next = true
  | _ => True

/-- The invariant holds at the beginning. -/
theorem Settled.inv (h : s.Settled) : ∃ place, s.Inv place := by
  obtain ⟨place, hplace⟩ := h.located
  refine ⟨place, hplace, fun c hc => ?_, h.saved, fun c hc c' hc' hne t ht ht' => ?_⟩
  · rw [h.point c hc]
    exact h.executes c hc
  · rw [h.executes c hc] at ht
    rw [h.executes c' hc'] at ht'
    have hplace₁ := (hplace.headed c hc t).mp ht
    have hplace₂ := (hplace.headed c' hc' t).mp ht'
    exact hne (Place.head.inj (hplace₁.symm.trans hplace₂))

/-- In a list of its own a CPU finds no thread that is not saved. -/
theorem Inv.saved_of_partitioned (h : s.Inv place) (hk : s.criterion.partitioned = true)
    (hpoint : s.point c = .locked)
    (hnext : place next = .queue (s.criterion.currentQueue c)) : s.saved next = true := by
  cases hsaved : s.saved next with
  | true => rfl
  | false =>
    exfalso
    obtain ⟨c', hc', hexec⟩ := (h.saved next).mp hsaved
    have hat := h.points c' hc'
    -- the CPU that executes it has it as its chosen thread or is just leaving it
    have hrun (heq : s.executes c' = s.running c') : False := by
      have hplace := (h.located.headed c' hc' next).mp (heq.symm.trans hexec)
      rw [hnext] at hplace
      cases hplace
    have hleft {prev : Tid} (heq : s.executes c' = some prev)
        (hplace : place prev = .queue (s.criterion.currentQueue c'))
        (hne : s.point c' ≠ .locked) : False := by
      cases heq.symm.trans hexec
      have hcc := MulticoreCriterion.queue_inj hk (Place.queue.inj (hplace.symm.trans hnext))
      exact hne (hcc ▸ hpoint)
    cases hp : s.point c' with
    | thread => rw [hp] at hat; exact hrun hat
    | locked => rw [hp] at hat; exact hrun hat
    | same => rw [hp] at hat; exact hrun hat
    | updated p n => rw [hp] at hat; exact hleft hat.1 hat.2.2.2 (by rw [hp]; nofun)
    | released p n => rw [hp] at hat; exact hleft hat.1 hat.2.2.2 (by rw [hp]; nofun)
    | saved n =>
      rw [hp] at hat
      cases hat.1.symm.trans hexec

/-! ## Steps -/

/-- A step of the CPU `c` leaves the other ones where they are. -/
structure StepOf (c : Nat) (s s' : Dispatching) (place place' : Tid → Place) : Prop where
  criterion : s'.criterion = s.criterion
  cpus : s'.cpus = s.cpus
  point : ∀ c' ≠ c, s'.point c' = s.point c'
  executes : ∀ c' ≠ c, s'.executes c' = s.executes c'
  running : ∀ c' ≠ c, s'.running c' = s.running c'
  saved : ∀ c' < s.cpus, c' ≠ c → ∀ t, s.running c' = some t → s.saved t = true →
    s'.saved t = true
  place : ∀ t q, s.saved t = false → place t = .queue q → place' t = .queue q

/-- The other CPUs are where they were. -/
theorem Inv.points_step {s' : Dispatching} {place' : Tid → Place} (h : s.Inv place)
    (hstep : StepOf c s s' place place') (hself : s'.At place' c (s'.point c)) :
    ∀ c' < s'.cpus, s'.At place' c' (s'.point c') := by
  intro c' hc'
  by_cases hcc : c' = c
  · rw [hcc]
    exact hself
  · rw [hstep.cpus] at hc'
    -- another CPU: what it relies on is that nobody else touches the threads of its switch
    have hat := h.points c' hc'
    have hexec := hstep.executes c' hcc
    have hrun := hstep.running c' hcc
    -- between two threads the previous one is not saved yet
    have hkept {prev next : Tid} (hold : s.executes c' = some prev ∧ s.running c' = some next ∧
        s.saved next = true ∧ place prev = .queue (s.criterion.currentQueue c')) :
        s'.executes c' = some prev ∧ s'.running c' = some next ∧ s'.saved next = true ∧
          place' prev = .queue (s'.criterion.currentQueue c') := by
      obtain ⟨he, hr, hs, hp⟩ := hold
      have hunsaved : s.saved prev = false := (h.saved prev).mpr ⟨c', hc', he⟩
      rw [hexec, hrun, hstep.criterion]
      exact ⟨he, hr, hstep.saved c' hc' hcc next hr hs, hstep.place prev _ hunsaved hp⟩
    rw [hstep.point c' hcc]
    cases hp : s.point c' with
    | thread => rw [hp] at hat; exact hexec.trans (hat.trans hrun.symm)
    | locked => rw [hp] at hat; exact hexec.trans (hat.trans hrun.symm)
    | same => rw [hp] at hat; exact hexec.trans (hat.trans hrun.symm)
    | updated prev next => rw [hp] at hat; exact hkept hat
    | released prev next => rw [hp] at hat; exact hkept hat
    | saved next =>
      rw [hp] at hat
      obtain ⟨he, hr, hs⟩ := hat
      exact ⟨hexec.trans he, hrun.trans hr, hstep.saved c' hc' hcc next hr hs⟩

/-- A step of `c` that leaves the lists, the contexts and the threads' places. -/
theorem Inv.point (h : s.Inv place) (hat : s.At place c p) (lock : RecursiveLock Tid) :
    Inv { s with lock := lock, point := Function.update s.point c p } place where
  located := ⟨h.located.listed, h.located.nodup, h.located.headed, h.located.occupied⟩
  points := by
    have hstep : StepOf c s { s with lock := lock, point := Function.update s.point c p }
        place place :=
      ⟨rfl, rfl, fun c' hc' => Function.update_of_ne hc' _ _, fun _ _ => rfl, fun _ _ => rfl,
        fun _ _ _ _ _ hs => hs, fun _ _ _ hq => hq⟩
    refine h.points_step hstep ?_
    have hself : Function.update s.point c p c = p := Function.update_self _ _ _
    show At _ place c (Function.update s.point c p c)
    rw [hself]
    cases p with
    | thread => exact hat
    | locked => exact hat
    | same => exact hat
    | updated prev next => exact hat
    | released prev next => exact hat
    | saved next => exact hat
  saved := h.saved
  none_twice := h.none_twice

/-- Acquiring the lock keeps the invariant. -/
theorem Inv.lock (h : s.Inv place) (hact : s.CanAct (.lock c)) : (s.step (.lock c)).Inv place := by
  obtain ⟨hc, hpoint, -⟩ := hact
  have hat := h.points c hc
  rw [hpoint] at hat
  unfold step
  dsimp only
  split
  · exact h.point (p := .locked) hat _
  · exact h

/-- Releasing the lock keeps the invariant. -/
theorem Inv.release (h : s.Inv place) (hact : s.CanAct (.release c)) :
    (s.step (.release c)).Inv place := by
  obtain ⟨hc, hpoint⟩ := hact
  have hat := h.points c hc
  unfold step
  dsimp only
  cases hpoint with
  | inl hsame =>
    rw [hsame] at hat ⊢
    exact h.point (p := .thread) hat _
  | inr hupdated =>
    obtain ⟨prev, next, hupdated⟩ := hupdated
    rw [hupdated] at hat ⊢
    exact h.point (p := .released prev next) hat _

/-- Choosing a thread that has been saved keeps the invariant. -/
theorem Inv.choose (h : s.Inv place) (hact : s.CanAct (.choose c rank eligible))
    (hsaved : s.ChoosesSaved (.choose c rank eligible)) :
    ∃ place', (s.step (.choose c rank eligible)).Inv place' := by
  obtain ⟨hc, hpoint⟩ := hact
  obtain ⟨prev, hprev⟩ := Option.isSome_iff_exists.mp (h.located.occupied c hc)
  obtain ⟨next, hnext, hlocated, hother⟩ := h.located.choose hc hprev rank eligible
  have hat := h.points c hc
  rw [hpoint] at hat
  have hexec : s.executes c = some prev := Eq.trans hat hprev
  have hplace : place prev = .head c := (h.located.headed c hc prev).mp hprev
  refine ⟨s.moved place c prev next, ?_⟩
  -- the next thread has been saved, unless it is the previous one
  have hready (hne : next ≠ prev) : s.saved next = true := by
    obtain ⟨hhead, hle⟩ := hother hne
    cases hsaved with
    | inl hk =>
      refine h.saved_of_partitioned hk hpoint ((h.located.listed _ next).mp ?_)
      exact List.mem_of_mem_head? hhead
    | inr hsaved =>
      refine hsaved next hhead fun p hp => ?_
      rw [hprev] at hp
      cases hp
      exact hle
  have hplaces (t : Tid) (q : Nat) (ht : s.saved t = false) (hq : place t = .queue q) :
      s.moved place c prev next t = .queue q := by
    have htp : t ≠ prev := by
      rintro rfl
      cases hplace.symm.trans hq
    have htn : t ≠ next := by
      rintro rfl
      have htrue := hready htp
      rw [ht] at htrue
      cases htrue
    rw [moved_eq, if_neg htn, if_neg htp, hq]
  unfold step
  simp only [hprev, hnext]
  unfold dispatch
  by_cases hsame : prev = next
  · rw [if_pos hsame]
    have hstep : StepOf c s { s.choose c rank eligible with
        point := Function.update s.point c .same } place (s.moved place c prev next) :=
      ⟨rfl, rfl, fun c' hc' => Function.update_of_ne hc' _ _, fun _ _ => rfl,
        fun c' hc' => choose_running_of_ne hc', fun _ _ _ _ _ hs => hs, hplaces⟩
    refine ⟨⟨hlocated.listed, hlocated.nodup, hlocated.headed, hlocated.occupied⟩,
      h.points_step hstep ?_, h.saved, h.none_twice⟩
    have hself : Function.update s.point c SwitchPoint.same c = .same := Function.update_self _ _ _
    show At _ _ c (Function.update s.point c .same c)
    rw [hself]
    exact hexec.trans (hsame ▸ hnext.symm)
  · rw [if_neg hsame]
    have hstep (state : Tid → State) : StepOf c s { s.choose c rank eligible with
        state := state
        point := Function.update s.point c (.updated prev next) }
        place (s.moved place c prev next) :=
      ⟨rfl, rfl, fun c' hc' => Function.update_of_ne hc' _ _, fun _ _ => rfl,
        fun c' hc' => choose_running_of_ne hc', fun _ _ _ _ _ hs => hs, hplaces⟩
    refine ⟨⟨hlocated.listed, hlocated.nodup, hlocated.headed, hlocated.occupied⟩,
      h.points_step (hstep _) ?_, h.saved, h.none_twice⟩
    have hself : Function.update s.point c (SwitchPoint.updated prev next) c =
        .updated prev next := Function.update_self _ _ _
    show At _ _ c (Function.update s.point c (.updated prev next) c)
    rw [hself]
    refine ⟨hexec, hnext, hready (Ne.symm hsame), ?_⟩
    rw [moved_eq, if_neg hsame, if_pos rfl]
    rfl

/-- Saving a context keeps the invariant. -/
theorem Inv.save (h : s.Inv place) (hact : s.CanAct (.save c)) : (s.step (.save c)).Inv place := by
  obtain ⟨hc, prev, next, hpoint⟩ := hact
  have hat := h.points c hc
  rw [hpoint] at hat
  obtain ⟨hexec, hrun, hnext, -⟩ := hat
  have hsaved (t : Tid) (ht : s.saved t = true) : Function.update s.saved prev true t = true := by
    rw [Function.update_apply, ht, ite_self]
  unfold step
  simp only [hpoint]
  have hstep : StepOf c s { s with
      executes := Function.update s.executes c none
      saved := Function.update s.saved prev true
      point := Function.update s.point c (.saved next) } place place :=
    ⟨rfl, rfl, fun c' hc' => Function.update_of_ne hc' _ _,
      fun c' hc' => Function.update_of_ne hc' _ _, fun _ _ => rfl,
      fun _ _ _ t _ hs => hsaved t hs, fun _ _ _ hq => hq⟩
  refine ⟨⟨h.located.listed, h.located.nodup, h.located.headed, h.located.occupied⟩,
    h.points_step hstep ?_, fun t => ?_, fun c₁ hc₁ c₂ hc₂ hne t ht ht' => ?_⟩
  · have hself : Function.update s.point c (SwitchPoint.saved next) c = .saved next :=
      Function.update_self _ _ _
    show At _ _ c (Function.update s.point c (.saved next) c)
    rw [hself]
    exact ⟨Function.update_self _ _ _, hrun, hsaved next hnext⟩
  · show Function.update s.saved prev true t = false ↔
      ∃ c' < s.cpus, Function.update s.executes c none c' = some t
    -- `prev` was executed here only, so it is executed nowhere once its context is saved
    by_cases ht : t = prev
    · subst ht
      rw [Function.update_self]
      refine iff_of_false nofun ?_
      rintro ⟨c', hc', hexec'⟩
      rw [Function.update_apply] at hexec'
      split at hexec'
      · cases hexec'
      · rename_i hcc
        exact h.none_twice c hc c' hc' (Ne.symm hcc) t hexec hexec'
    · rw [Function.update_of_ne ht, h.saved]
      refine exists_congr fun c' => and_congr_right fun hc' => ?_
      rw [Function.update_apply]
      split
      · rename_i hcc
        rw [hcc, hexec]
        exact iff_of_false (fun heq => ht (Option.some.inj heq).symm) nofun
      · rfl
  · have ht : Function.update s.executes c none c₁ = some t := ht
    have ht' : Function.update s.executes c none c₂ = some t := ht'
    rw [Function.update_apply] at ht ht'
    split at ht
    · cases ht
    · split at ht'
      · cases ht'
      · exact h.none_twice c₁ hc₁ c₂ hc₂ hne t ht ht'

/-- Loading a context keeps the invariant. -/
theorem Inv.load (h : s.Inv place) (hact : s.CanAct (.load c)) : (s.step (.load c)).Inv place := by
  obtain ⟨hc, next, hpoint⟩ := hact
  have hat := h.points c hc
  rw [hpoint] at hat
  obtain ⟨hexec, hrun, hnext⟩ := hat
  -- the context of `next` is saved, so no core executes it
  have hnobody (c' : Nat) (hc' : c' < s.cpus) : s.executes c' ≠ some next := by
    intro hexec'
    have hunsaved := (h.saved next).mpr ⟨c', hc', hexec'⟩
    rw [hnext] at hunsaved
    cases hunsaved
  unfold step
  simp only [hpoint]
  have hstep : StepOf c s { s with
      executes := Function.update s.executes c (some next)
      saved := Function.update s.saved next false
      point := Function.update s.point c .thread } place place := by
    refine ⟨rfl, rfl, fun c' hc' => Function.update_of_ne hc' _ _,
      fun c' hc' => Function.update_of_ne hc' _ _, fun _ _ => rfl,
      fun c' hc' hcc t ht hs => ?_, fun _ _ _ hq => hq⟩
    -- what another core runs is the head of another list
    have htn : t ≠ next := by
      rintro rfl
      have hplace := (h.located.headed c hc t).mp hrun
      have hplace' := (h.located.headed c' hc' t).mp ht
      exact hcc (Place.head.inj (hplace'.symm.trans hplace))
    exact (Function.update_of_ne htn _ _).trans hs
  refine ⟨⟨h.located.listed, h.located.nodup, h.located.headed, h.located.occupied⟩,
    h.points_step hstep ?_, fun t => ?_, fun c₁ hc₁ c₂ hc₂ hne t ht ht' => ?_⟩
  · have hself : Function.update s.point c SwitchPoint.thread c = .thread :=
      Function.update_self _ _ _
    show At _ _ c (Function.update s.point c .thread c)
    rw [hself]
    exact (Function.update_self _ _ _).trans hrun.symm
  · show Function.update s.saved next false t = false ↔
      ∃ c' < s.cpus, Function.update s.executes c (some next) c' = some t
    by_cases ht : t = next
    · subst ht
      rw [Function.update_self]
      exact iff_of_true rfl ⟨c, hc, Function.update_self _ _ _⟩
    · rw [Function.update_of_ne ht, h.saved]
      refine exists_congr fun c' => and_congr_right fun hc' => ?_
      rw [Function.update_apply]
      split
      · rename_i hcc
        rw [hcc, hexec]
        exact iff_of_false nofun fun heq => ht (Option.some.inj heq).symm
      · rfl
  · have ht : Function.update s.executes c (some next) c₁ = some t := ht
    have ht' : Function.update s.executes c (some next) c₂ = some t := ht'
    rw [Function.update_apply] at ht ht'
    split at ht
    · split at ht'
      · rename_i h₁ h₂
        exact hne (h₁.trans h₂.symm)
      · cases ht
        exact hnobody c₂ hc₂ ht'
    · split at ht'
      · cases ht'
        exact hnobody c₁ hc₁ ht
      · exact h.none_twice c₁ hc₁ c₂ hc₂ hne t ht ht'

/-- Every step keeps the invariant. -/
theorem Inv.step (h : s.Inv place) {a : SwitchAction} (hact : s.CanAct a)
    (hsaved : s.ChoosesSaved a) : ∃ place', (s.step a).Inv place' := by
  cases a with
  | lock c => exact ⟨place, h.lock hact⟩
  | choose c rank eligible => exact h.choose hact hsaved
  | release c => exact ⟨place, h.release hact⟩
  | save c => exact ⟨place, h.save hact⟩
  | load c => exact ⟨place, h.load hact⟩

/-- A context that is loaded has been saved. -/
theorem Inv.loadsSaved (h : s.Inv place) {a : SwitchAction} (hact : s.CanAct a) :
    s.LoadsSaved a := by
  cases a with
  | load c =>
    intro next hpoint
    have hat := h.points c hact.1
    rw [hpoint] at hat
    exact hat.2.2
  | _ => trivial

end Dispatching

open Dispatching

/-- As long as no thread is chosen from a shared list before it has been saved, contexts
    are loaded after they have been saved and no thread is executed on two CPUs. -/
theorem none_twice_of_choosesSaved {s : Dispatching} {as : List SwitchAction}
    (hinit : dispatching.Init s) (hvalid : dispatching.Valid s as)
    (hmeets : dispatching.Meets ChoosesSaved s as) :
    dispatching.Always NoneTwice s as ∧ dispatching.Meets LoadsSaved s as := by
  obtain ⟨place, hinv⟩ := Settled.inv hinit
  have hstep : ∀ (s : Dispatching) (a : SwitchAction), (∃ place, s.Inv place) → s.CanAct a →
      s.ChoosesSaved a → ∃ place, (s.step a).Inv place :=
    fun s a hs hact hsaved => hs.choose_spec.step hact hsaved
  have halways : dispatching.Always (fun s => ∃ place, s.Inv place) s as :=
    TransitionSystem.Meets.always hstep ⟨place, hinv⟩ hvalid hmeets
  refine ⟨halways.imp fun s hs => hs.choose_spec.none_twice, ?_⟩
  exact TransitionSystem.Meets.meets hstep
    (fun s a hs hact _ => hs.choose_spec.loadsSaved hact) ⟨place, hinv⟩ hvalid hmeets

/-- Two CPUs under GEDF that execute the threads 0 and 1; the thread 2 is ready. -/
def gedfPair : Dispatching where
  criterion := .gedf
  cpus := 2
  lists := fun q =>
    { chosen := fun h => if q = 0 ∧ h < 2 then some h else none
      list := if q = 0 then [2] else [] }
  state := fun t => if t < 2 then .running else .ready
  executes := fun c => if c < 2 then some c else none
  saved := fun t => decide (2 ≤ t)

/-- The two CPUs of the example have settled. -/
theorem gedfPair_settled : gedfPair.Settled where
  located := by
    -- every CPU runs its own thread, and the third one is queued
    refine ⟨fun t => if t < 2 then .head t else if t = 2 then .queue 0 else .away,
      fun q t => ?_, fun q => ?_, fun c hc t => ?_, fun c hc => ?_⟩
    · show t ∈ (if q = 0 then [2] else []) ↔ _
      by_cases hq : q = 0
      · by_cases ht : t = 2
        · simp [hq, ht]
        · by_cases hlt : t < 2 <;> simp [hq, ht, hlt]
      · by_cases ht : t = 2
        · simp [hq, ht, Ne.symm hq]
        · by_cases hlt : t < 2 <;> simp [hq, ht, hlt]
    · show (if q = 0 then [2] else []).Nodup
      split <;> simp
    · have hrun : gedfPair.running c = some c := if_pos ⟨rfl, hc⟩
      rw [hrun, Option.some.injEq]
      by_cases hlt : t < 2
      · rw [if_pos hlt, Place.head.injEq]
        exact eq_comm
      · have hct : c ≠ t := by
          rintro rfl
          exact hlt hc
        rw [if_neg hlt]
        refine iff_of_false hct ?_
        split <;> nofun
    · have hrun : gedfPair.running c = some c := if_pos ⟨rfl, hc⟩
      rw [hrun]
      rfl
  lock := rfl
  point _ _ := rfl
  executes c hc := (if_pos hc).trans (if_pos ⟨rfl, hc⟩).symm
  saved t := by
    show decide (2 ≤ t) = false ↔ ∃ c < 2, (if c < 2 then some c else none) = some t
    have hlt : (decide (2 ≤ t) = false) ↔ t < 2 := by
      rw [decide_eq_false_iff_not, Nat.not_le]
    refine hlt.trans ⟨fun ht => ⟨t, ht, if_pos ht⟩, ?_⟩
    rintro ⟨c, hc, heq⟩
    rw [if_pos hc] at heq
    cases heq
    exact hc

/-- The thread 2 is the most urgent one and the thread 1 the least. -/
def urgency (t : Tid) : Int := if t = 2 then 0 else if t = 0 then 1 else 2

/-- The CPU 1 takes the thread of the CPU 0 when it has been saved, and before the CPU 0 loads the
    next one. -/
theorem none_twice_of_choosesSaved_gedf :
    dispatching.Always NoneTwice gedfPair
        [.lock 0, .choose 0 urgency fun _ => true, .release 0, .save 0,
          .lock 1, .choose 1 urgency fun _ => true, .release 1, .load 0, .save 1, .load 1] ∧
      dispatching.Meets LoadsSaved gedfPair
        [.lock 0, .choose 0 urgency fun _ => true, .release 0, .save 0,
          .lock 1, .choose 1 urgency fun _ => true, .release 1, .load 0, .save 1, .load 1] := by
  refine none_twice_of_choosesSaved gedfPair_settled
    ⟨⟨by decide, rfl, fun _ _ => .inl rfl⟩, ⟨by decide, rfl⟩, ⟨by decide, .inr ⟨0, 2, rfl⟩⟩,
      ⟨by decide, 0, 2, rfl⟩, ⟨by decide, rfl, fun _ _ => .inl rfl⟩, ⟨by decide, rfl⟩,
      ⟨by decide, .inr ⟨1, 0, rfl⟩⟩, ⟨by decide, 2, rfl⟩, ⟨by decide, 1, 0, rfl⟩,
      ⟨by decide, 0, rfl⟩, trivial⟩
    ⟨trivial, .inr fun next hnext _ => ?_, trivial, trivial, trivial,
      .inr fun next hnext _ => ?_, trivial, trivial, trivial, trivial, trivial⟩
  · cases hnext
    rfl
  · cases hnext
    rfl

/-- Between the release and the save of the CPU 0 the CPU 1 takes its thread. -/
theorem twice_under_gedf :
    dispatching.Init gedfPair ∧
      dispatching.Valid gedfPair
        [.lock 0, .choose 0 urgency fun _ => true, .release 0,
          .lock 1, .choose 1 urgency fun _ => true, .release 1, .save 1, .load 1] ∧
      ¬dispatching.Always NoneTwice gedfPair
        [.lock 0, .choose 0 urgency fun _ => true, .release 0,
          .lock 1, .choose 1 urgency fun _ => true, .release 1, .save 1, .load 1] := by
  refine ⟨gedfPair_settled, ⟨⟨by decide, rfl, fun _ _ => .inl rfl⟩, ⟨by decide, rfl⟩,
    ⟨by decide, .inr ⟨0, 2, rfl⟩⟩, ⟨by decide, rfl, fun _ _ => .inl rfl⟩, ⟨by decide, rfl⟩,
    ⟨by decide, .inr ⟨1, 0, rfl⟩⟩, ⟨by decide, 1, 0, rfl⟩, ⟨by decide, 0, rfl⟩, trivial⟩,
    fun h => ?_⟩
  exact h.last 0 (by decide) 1 (by decide) (by decide) 0 (by decide) (by decide)

end Epos
