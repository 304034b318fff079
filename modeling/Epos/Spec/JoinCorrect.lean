import Epos.ForStd.TransitionSystem
import Epos.Kernel.Joining
import Epos.Spec.ResidualCeiling
import Epos.Spec.SortedQueues

/-!
# Joined threads

A thread in its `join()` is suspended like any other one, and `resume()` does not tell them apart.
As long as no thread is resumed that waits in its `join()`, it returns after the other thread has
exited, with its status, and it has been put back into its ready list once.
-/

namespace Epos

namespace Kernel

variable {k k' k'' : Kernel} {a : Action} {c : Nat} {s : Sid} {t u x : Tid} {st : State}

/-! ## Finished threads -/

/-- No thread exits, and those that have exited stay so. -/
def SameFinished (k k' : Kernel) : Prop :=
  ∀ u, k'.state u = some .finishing ↔ k.state u = some .finishing

/-- Two steps that finish nobody finish nobody. -/
theorem SameFinished.trans (h : SameFinished k k') (h' : SameFinished k' k'') :
    SameFinished k k'' :=
  fun u => (h' u).trans (h u)

/-- A step that changes no state finishes nobody. -/
theorem SameFinished.of_eq (h : k'.state = k.state) : SameFinished k k' := by
  intro u
  rw [h]

/-- A thread that competes has not finished. -/
theorem Schedulable.not_finishing (h : k.Schedulable u) : k.state u ≠ some .finishing := by
  intro hu
  simp [Schedulable, hu] at h

/-- Threads that compete for their cores go on competing. -/
theorem sameFinished_of_schedulable (hs : k'.Schedulable u ↔ k.Schedulable u)
    (hold : ¬k.Schedulable u → k'.state u = k.state u) :
    k'.state u = some .finishing ↔ k.state u = some .finishing := by
  by_cases hu : k.Schedulable u
  · exact iff_of_false (hs.mpr hu).not_finishing hu.not_finishing
  · rw [hold hu]

/-- Settling finishes nobody. -/
theorem Settles.sameFinished (h : Settles k k') : SameFinished k k' :=
  fun u => sameFinished_of_schedulable (h u).1 (h u).2

/-- A change between other states finishes nobody. -/
theorem sameFinished_setState (ht : k.state t ≠ some .finishing) (hst : st ≠ .finishing) :
    SameFinished k (k.setState t st) := by
  intro u
  rw [setState_state]
  by_cases hut : u = t
  · rw [if_pos hut, hut]
    exact iff_of_false (fun h => hst (Option.some.inj h)) ht
  · rw [if_neg hut]

/-- A thread that enters its list finishes nobody. -/
theorem Placed.sameFinished_enter (h : k.Placed) (ht : ¬k.Schedulable t)
    (hlt : k.core t < k.cores) (hst : k.state t ≠ some .finishing) :
    SameFinished k (k.enter c t) :=
  (sameFinished_setState hst (by simp)).trans (h.insert ht hlt).settles_preempt.sameFinished

/-- A thread that waits or is suspended finishes nobody. -/
theorem Placed.sameFinished_leave (h : k.Placed) (hr : k.running (k.core t) = some t)
    (hidle : t ≠ k.idle (k.core t)) (hst : st = .waiting ∨ st = .suspended) :
    SameFinished k (k.leave t st) := by
  have hleaves : st ≠ .running ∧ st ≠ .ready := by
    cases hst with
    | inl hst => simp [hst]
    | inr hst => simp [hst]
  obtain ⟨hself, hothers⟩ := h.leave_state hr hidle hleaves
  intro u
  by_cases hut : u = t
  · rw [hut, hself, (h.state_of_running hr).1]
    cases hst with
    | inl hst => simp [hst]
    | inr hst => simp [hst]
  · exact sameFinished_of_schedulable (hothers u hut).1 (hothers u hut).2

/-- Who is woken up was waiting. -/
theorem WellFormed.state_of_woken (h : k.WellFormed) (hw : (k.toSync.v s t).2 = some u) :
    k.state u = some .waiting := by
  obtain ⟨-, hq⟩ := Sync.v_queue k.toSync s t
  rw [hw] at hq
  have hmem : u ∈ (k.sem s).queue := hq ▸ List.mem_cons_self
  exact (h.queued s u hmem).1

/-- `v()` finishes nobody. -/
theorem WellFormed.sameFinished_v (h : k.WellFormed) (hr : k.running (k.core t) = some t) :
    SameFinished k (k.v t s) := by
  have hcalls (x : Tid) (hx : x ≠ t) : (k.callV t s).call x = k.call x :=
    Function.update_of_ne hx _ _
  unfold Kernel.v
  cases hw : (k.toSync.v s t).2 with
  | none => exact .of_eq (complete_state _ _)
  | some n =>
    obtain ⟨hwf, hns, hlt, -, -⟩ :=
      h.woken hr (show (k.callV t s).toSync = _ from rfl) hw rfl rfl rfl rfl hcalls
    have hst : (k.callV t s).state n ≠ some .finishing := by
      intro hfin
      have hwait : (k.callV t s).state n = some .waiting := h.state_of_woken hw
      rw [hwait] at hfin
      cases hfin
    have henter : SameFinished k ((k.callV t s).enter (k.core t) n) :=
      hwf.toPlaced.sameFinished_enter hns hlt hst
    dsimp only
    split
    · exact henter.trans (.of_eq (complete_state _ _))
    · exact henter

/-- A handler finishes nobody. -/
theorem WellFormed.sameFinished_handler (h : k.WellFormed) :
    SameFinished k (k.handler c s) := by
  unfold Kernel.handler
  cases hr : k.running c with
  | none => exact .of_eq rfl
  | some t =>
    dsimp only
    cases hw : (k.toSync.v s t).2 with
    | none => exact .of_eq rfl
    | some n =>
      obtain ⟨hwf, hns, hlt, -, -⟩ :=
        h.woken hr (show (k.interruptV t s).toSync = _ from rfl) hw rfl rfl rfl rfl fun _ _ => rfl
      refine hwf.toPlaced.sameFinished_enter hns hlt fun hfin => ?_
      have hwait : (k.interruptV t s).state n = some .waiting := h.state_of_woken hw
      rw [hwait] at hfin
      cases hfin

/-- `resume()` finishes nobody. -/
theorem Placed.sameFinished_resume (h : k.Placed) : SameFinished k (k.resume c u) := by
  unfold Kernel.resume
  split
  · next hst =>
    exact h.sameFinished_enter (by simp [Schedulable, hst]) (h.core_lt u (by simp [hst]))
      (by simp [hst])
  · exact .of_eq rfl

/-- The thread that exits is the only one that finishes. -/
theorem WellFormed.exit_finishing (h : k.WellFormed) (hr : k.running (k.core t) = some t)
    (hidle : t ≠ k.idle (k.core t)) :
    (k.exit t).state u = some .finishing ↔ u = t ∨ k.state u = some .finishing := by
  obtain ⟨-, hnj⟩ := h.not_waiting (.inl (h.state_of_running hr).1)
  obtain ⟨hsw, -⟩ := h.exit_switching hr hidle
  have hch := hsw.setSched
    (f := fun l => l.choose (((k.setState t .finishing).remove t).resumeJoiner t).priority
      ((((k.setState t .finishing).remove t).resumeJoiner t).eligible (k.core t)))
    SchedulingList.choose_perm (SchedulingList.choose_isSome (hsw.isSome _ hsw.lt))
  refine (hch.settles_dispatch.sameFinished u).trans ?_
  have hfin : (k.setState t .finishing).state u = some .finishing ↔
      u = t ∨ k.state u = some .finishing := by
    rw [setState_state]
    by_cases hut : u = t <;> simp [hut]
  show (((k.setState t .finishing).remove t).resumeJoiner t).state u = some .finishing ↔ _
  unfold resumeJoiner
  cases hj : ((k.setState t .finishing).remove t).joining t with
  | none => exact hfin
  | some j =>
    -- the joiner is suspended, so it is another thread
    have hjoin : k.joining t = some j := hj
    have hjt : j ≠ t := fun heq => hnj t (heq ▸ hjoin)
    have hsuspended : (k.setState t .finishing).state j ≠ some .finishing := by
      rw [setState_state, if_neg hjt, (h.joined t j hjoin).1]
      simp
    exact (sameFinished_setState hsuspended (by simp) u).trans hfin

/-- Only `exit()` finishes a thread. -/
theorem WellFormed.sameFinished_step (h : k.WellFormed) (ha : k.CanAct a)
    (he : ∀ t, a ≠ .exit t) : SameFinished k (k.step a) := by
  cases a with
  | p t s =>
    show SameFinished k (k.p t s)
    unfold Kernel.p
    split
    · have hp : (k.callP t s).Placed := h.toPlaced.congr rfl rfl rfl
      exact hp.sameFinished_leave ha.1.1 ha.2 (.inl rfl)
    · exact .of_eq (complete_state _ _)
  | v t s => exact h.sameFinished_v ha.1
  | ret t => exact .of_eq (complete_state k t)
  | create c t st =>
    obtain ⟨-, ht, hlt, hst⟩ := ha
    -- a new thread has no state before it, and starts in another one than `FINISHING`
    have hborn : k.state t ≠ some .finishing := by simp [ht]
    obtain ⟨hns, -, -⟩ := h.unborn ht
    cases hst with
    | inl hready =>
      subst hready
      show SameFinished k (k.create c t .ready)
      unfold Kernel.create
      simp only [ne_eq, not_true_eq_false, reduceCtorEq, false_and, if_false]
      split
      · exact h.toPlaced.sameFinished_enter hns hlt hborn
      · exact sameFinished_setState hborn (by simp)
    | inr hsuspended =>
      subst hsuspended
      show SameFinished k (k.create c t .suspended)
      rw [create_suspended h.toPlaced hns hlt]
      exact sameFinished_setState hborn (by simp)
  | yield t => exact (h.settles_yield ha.1).sameFinished
  | exit t => exact absurd rfl (he t)
  | join t u =>
    show SameFinished k (k.join t u)
    unfold Kernel.join
    split
    · exact .of_eq rfl
    · have hp : (k.callJoin t u).Placed := h.toPlaced.congr rfl rfl rfl
      exact hp.sameFinished_leave ha.1.1 ha.2.1 (.inr rfl)
  | suspend t u =>
    obtain ⟨⟨hr, -⟩, hidle, hu⟩ := ha
    cases hu with
    | inl hself =>
      subst hself
      exact h.toPlaced.sameFinished_leave hr hidle (.inr rfl)
    | inr hready =>
      have hp : ((k.setState u .suspended).remove u).Placed :=
        h.toPlaced.remove_ready hready hidle (by simp)
      exact (sameFinished_setState (by simp [hready]) (by simp)).trans
        hp.toQueued.settles_dispatch.sameFinished
  | resume c u => exact h.toPlaced.sameFinished_resume
  | reschedule c => exact h.settles_reschedule.sameFinished
  | handler c s => exact h.sameFinished_handler
  | priority c u prio =>
    have hre : SameFinished k (k.reorder u prio) := by
      unfold Kernel.reorder
      split <;> exact .of_eq rfl
    show SameFinished k (k.setCriterion c u prio)
    unfold Kernel.setCriterion
    dsimp only
    split
    · exact hre.trans (h.reorder ha.2).toPlaced.settles_preempt.sameFinished
    · exact hre
  | update u elapsed =>
    show SameFinished k (k.update u elapsed)
    unfold Kernel.update
    split <;> exact .of_eq rfl

/-! ## Threads in `join()` -/

/-- No thread joins another one that has not joined it before. -/
structure JoinsNone (k k' : Kernel) : Prop where
  joining : k'.joining = k.joining
  call : ∀ x u, k'.call x = some (.join u) → k.call x = some (.join u)

/-- Two steps that join nobody join nobody. -/
theorem JoinsNone.trans (h : JoinsNone k k') (h' : JoinsNone k' k'') : JoinsNone k k'' :=
  ⟨h'.joining.trans h.joining, fun x u hx => h.call x u (h'.call x u hx)⟩

/-- A step that changes no call joins nobody. -/
theorem JoinsNone.of_eq (hjoining : k'.joining = k.joining) (hcall : k'.call = k.call) :
    JoinsNone k k' :=
  ⟨hjoining, fun x u hx => by rwa [hcall] at hx⟩

/-- A move joins nobody. -/
theorem Frame.joinsNone (h : Frame k k') : JoinsNone k k' := .of_eq h.joining h.call

/-- The end of a call joins nobody. -/
theorem joinsNone_complete (k : Kernel) (t : Tid) : JoinsNone k (k.complete t) := by
  constructor
  · obtain ⟨_, _, _, _, heq⟩ := complete_eq k t
    rw [heq]
  · intro x u hx
    rw [complete_call_eq] at hx
    split at hx
    · cases hx
    · exact hx

/-- A thread calls something else. -/
theorem joinsNone_of_call {call : Call} (hjoin : call.isJoin = false)
    (hjoining : k'.joining = k.joining)
    (hcall : ∀ x, k'.call x = if x = t then some call else k.call x) : JoinsNone k k' := by
  refine ⟨hjoining, fun x u hx => ?_⟩
  rw [hcall] at hx
  split at hx
  · cases hx
    cases hjoin
  · exact hx

/-- Only `join()` joins, and only `exit()` ends it. -/
theorem joinsNone_step (hj : ∀ t u, a ≠ .join t u) (he : ∀ t, a ≠ .exit t) :
    JoinsNone k (k.step a) := by
  -- the calls of `p()` and `v()` begin and end, and all else only moves threads
  cases a with
  | p t s =>
    have hcall : JoinsNone k (k.callP t s) := joinsNone_of_call rfl rfl fun _ => callP_call k t s
    show JoinsNone k (k.p t s)
    unfold Kernel.p
    split
    · exact hcall.trans (frame_leave _ _ _).joinsNone
    · exact hcall.trans (joinsNone_complete _ _)
  | v t s =>
    have hcall : JoinsNone k (k.callV t s) := joinsNone_of_call rfl rfl fun _ => callV_call k t s
    show JoinsNone k (k.v t s)
    unfold Kernel.v
    split
    · exact hcall.trans (joinsNone_complete _ _)
    · next n _ =>
      have henter := hcall.trans (frame_enter (k.callV t s) (k.core t) n).joinsNone
      dsimp only
      split
      · exact henter.trans (joinsNone_complete _ _)
      · exact henter
  | ret t => exact joinsNone_complete k t
  | create c t st => exact (frame_create k c t st).joinsNone
  | yield t => exact (frame_yield k t).joinsNone
  | exit t => exact absurd rfl (he t)
  | join t u => exact absurd rfl (hj t u)
  | suspend t u => exact (frame_suspend k t u).joinsNone
  | resume c u => exact (frame_resume k c u).joinsNone
  | reschedule c => exact (frame_reschedule k c).joinsNone
  | handler c s =>
    show JoinsNone k (k.handler c s)
    unfold Kernel.handler
    split
    · exact .of_eq rfl rfl
    · split
      · exact .of_eq rfl rfl
      · exact (JoinsNone.of_eq rfl rfl : JoinsNone k (k.interruptV _ s)).trans
          (frame_enter _ _ _).joinsNone
  | priority c u prio =>
    have hrank : JoinsNone k (k.setRank u prio) := .of_eq rfl rfl
    exact hrank.trans (frame_setCriterion k c u prio).joinsNone
  | update u elapsed =>
    show JoinsNone k (k.update u elapsed)
    unfold Kernel.update
    split <;> exact .of_eq rfl rfl

/-- `exit()` ends the `join()` of its own thread only. -/
theorem exit_joins (k : Kernel) (t : Tid) :
    (k.exit t).joining = (if (k.joining t).isSome then Function.update k.joining t none
      else k.joining) ∧ (k.exit t).call = k.call :=
  ⟨(frame_exit k t).joining, (frame_exit k t).call⟩

/-- A `join()` on a thread that goes on is remembered at that thread. -/
theorem join_joins (hfin : k.state u ≠ some .finishing) :
    (k.join t u).joining = Function.update k.joining u (some t) ∧
      (k.join t u).call = Function.update k.call t (some (.join u)) := by
  have hframe := frame_leave (k.callJoin t u) t .suspended
  unfold Kernel.join
  rw [if_neg hfin]
  exact ⟨hframe.joining, hframe.call⟩

/-- `resume()` on a thread that is not in `join()` keeps the kernel well formed. -/
theorem WellFormed.resume_spared (h : k.WellFormed)
    (hu : k.state u = some .suspended → k.parked u = false) : (k.resume c u).WellFormed := by
  by_cases hst : k.state u = some .suspended
  · refine h.resume fun x hx => ?_
    have hparked : k.parked u = true := by simp [parked, (h.joined x u hx).2, hx]
    rw [hu hst] at hparked
    cases hparked
  · unfold Kernel.resume
    rw [if_neg hst]
    exact h

end Kernel

/-! ## Runs -/

/-- Threads join each other, and each one exits with its status. -/
def joins (status : Tid → Int) : TransitionSystem Joining Action where
  Init σ := σ.toKernel.Boot ∧ ∀ t, σ.state t ≠ some .finishing
  Enabled σ a := σ.CanAct a
  next σ a := σ.step status a

namespace Joining

variable {status : Tid → Int} {σ : Joining} {a : Action} {c : Nat} {t u : Tid}

/-- A `join()` returns the status of a thread that has exited, after the caller has been put back
    once, and an exiting thread puts its joiner back from that `join()` for the first time. -/
def JoinsProperly (status : Tid → Int) (σ : Joining) : Action → Prop
  | .ret t => ∀ u, σ.call t = some (.join u) →
    σ.state u = some .finishing ∧ σ.stack u = status u ∧ σ.puts t = 1
  | .join _ u => σ.state u = some .finishing → σ.stack u = status u
  | .exit t => ∀ j, σ.joining t = some j → σ.call j = some (.join t) ∧ σ.puts j = 0
  | _ => True

/-- No thread is resumed that waits in its `join()`. -/
def Spares (σ : Joining) : Action → Prop
  | .resume _ u => σ.state u = some .suspended → σ.parked u = false
  | _ => True

/-- A thread in its `join()` waits, or the exit of the other thread has put it back. -/
structure Inv (status : Tid → Int) (σ : Joining) : Prop where
  wellFormed : σ.toKernel.WellFormed
  settled : ∀ t u, σ.call t = some (.join u) →
    (σ.joining u = some t ∧ σ.puts t = 0) ∨ (σ.state u = some .finishing ∧ σ.puts t = 1)
  exited : ∀ u, σ.state u = some .finishing → σ.stack u = status u

/-- What neither joins nor exits. -/
theorem Inv.keep (h : Inv status σ) {k' : Kernel} (hwf : k'.WellFormed)
    (hsame : σ.toKernel.SameFinished k') (hjoins : σ.toKernel.JoinsNone k') :
    Inv status { σ with toKernel := k' } := by
  refine ⟨hwf, fun x y hx => ?_, fun y hy => ?_⟩
  · cases h.settled x y (hjoins.call x y hx) with
    | inl hwaits => exact .inl ⟨(congrFun hjoins.joining y).trans hwaits.1, hwaits.2⟩
    | inr hput => exact .inr ⟨(hsame y).mpr hput.1, hput.2⟩
  · exact h.exited y ((hsame y).mp hy)

/-- Nobody is waiting for the result. -/
theorem exit_puts_of_none (h : σ.joining t = none) : (σ.exit status t).puts = σ.puts := by
  unfold Joining.exit
  rw [h]

/-- The joining thread gets its result. -/
theorem exit_puts_of_some {j : Tid} (h : σ.joining t = some j) :
    (σ.exit status t).puts = σ.put j := by
  unfold Joining.exit
  rw [h]

/-- `exit()` keeps the invariant. -/
theorem Inv.exit (h : Inv status σ) (hr : σ.running (σ.core t) = some t)
    (hidle : t ≠ σ.idle (σ.core t)) : Inv status (σ.exit status t) := by
  obtain ⟨hjoining, hcall⟩ := σ.toKernel.exit_joins t
  have hfin (u : Tid) := h.wellFormed.exit_finishing (u := u) hr hidle
  have hrunning : σ.state t ≠ some .finishing := by
    rw [(h.wellFormed.state_of_running hr).1]
    simp
  -- only the joiner of `t` is put back
  have hputs {x y : Tid} (hx : σ.call x = some (.join y)) (hy : y ≠ t) :
      (σ.exit status t).puts x = σ.puts x := by
    cases hj : σ.joining t with
    | none => rw [exit_puts_of_none hj]
    | some j =>
      rw [exit_puts_of_some hj]
      refine Function.update_of_ne (fun hxj => hy ?_) _ _
      rw [hxj, (h.wellFormed.joined t j hj).2] at hx
      cases hx
      rfl
  refine ⟨h.wellFormed.exit hr hidle, fun x y hx => ?_, fun y hy => ?_⟩
  · replace hx : σ.call x = some (.join y) := (congrFun hcall x).symm.trans hx
    by_cases hyt : y = t
    · subst hyt
      refine .inr ⟨(hfin y).mpr (.inl rfl), ?_⟩
      obtain ⟨hjoin, hzero⟩ := (h.settled x y hx).resolve_right fun hput => hrunning hput.1
      rw [exit_puts_of_some hjoin]
      show Function.update σ.puts x (σ.puts x + 1) x = 1
      rw [Function.update_self, hzero]
    · rw [hputs hx hyt]
      cases h.settled x y hx with
      | inl hwaits =>
        refine .inl ⟨?_, hwaits.2⟩
        refine (congrFun hjoining y).trans (Eq.trans ?_ hwaits.1)
        split
        · exact Function.update_of_ne hyt _ _
        · rfl
      | inr hput => exact .inr ⟨(hfin y).mpr (.inr hput.1), hput.2⟩
  · show Function.update σ.stack t (status t) y = status y
    by_cases hyt : y = t
    · rw [hyt, Function.update_self]
    · rw [Function.update_of_ne hyt]
      exact h.exited y (((hfin y).mp hy).resolve_left hyt)

/-- `join()` keeps the invariant. -/
theorem Inv.join (h : Inv status σ) (ha : σ.toKernel.CanAct (.join t u)) :
    Inv status (σ.join t u) := by
  have hwf : (σ.toKernel.join t u).WellFormed := h.wellFormed.step ha
  have hsame : σ.toKernel.SameFinished (σ.toKernel.join t u) :=
    h.wellFormed.sameFinished_step ha (by simp)
  -- a finished thread is not waited for
  by_cases hfin : σ.state u = some .finishing
  · have hsilent : σ.join t u = σ := by
      unfold Joining.join Kernel.join
      rw [if_pos hfin, if_pos hfin]
    rwa [hsilent]
  · obtain ⟨hjoining, hcall⟩ := Kernel.join_joins (t := t) hfin
    have hputs : (σ.join t u).puts = Function.update σ.puts t 0 := if_neg hfin
    refine ⟨hwf, fun x y hx => ?_, fun y hy => h.exited y ((hsame y).mp hy)⟩
    replace hx : Function.update σ.call t (some (.join u)) x = some (.join y) :=
      (congrFun hcall x).symm.trans hx
    show ((σ.toKernel.join t u).joining y = some x ∧ _) ∨
      ((σ.toKernel.join t u).state y = some .finishing ∧ _)
    rw [hputs, hjoining, hsame y]
    -- the thread that joins is in its new call, the others are in theirs
    by_cases hxt : x = t
    · subst hxt
      rw [Function.update_self] at hx
      cases hx
      exact .inl ⟨Function.update_self _ _ _, Function.update_self _ _ _⟩
    · rw [Function.update_of_ne hxt] at hx
      rw [Function.update_of_ne hxt]
      cases h.settled x y hx with
      | inl hwaits =>
        have hyu : y ≠ u := by
          intro heq
          rw [heq, ha.2.2.2.1] at hwaits
          cases hwaits.1
        exact .inl ⟨(Function.update_of_ne hyu _ _).trans hwaits.1, hwaits.2⟩
      | inr hput => exact .inr hput

/-- Every step that spares the joining threads keeps the invariant. -/
theorem Inv.step (h : Inv status σ) (ha : σ.CanAct a) (hspares : σ.Spares a) :
    Inv status (σ.step status a) := by
  -- neither `join()` nor `exit()`: the joining threads wait as before
  have hkeep (ha : σ.toKernel.CanAct a) (hj : ∀ t u, a ≠ .join t u) (he : ∀ t, a ≠ .exit t) :
      Inv status { σ with toKernel := σ.toKernel.step a } :=
    h.keep (h.wellFormed.step ha) (h.wellFormed.sameFinished_step ha he)
      (Kernel.joinsNone_step hj he)
  cases a with
  | exit t => exact h.exit ha.1.1 ha.2
  | join t u => exact h.join ha
  | resume c u =>
    -- `resume()` puts nothing for a thread that is not parked in `join()`
    have hputs : (σ.resume c u).puts = σ.puts := by
      refine if_neg fun hparked => ?_
      rw [hspares hparked.1] at hparked
      cases hparked.2
    have heq : σ.resume c u = { σ with toKernel := σ.toKernel.resume c u } := by
      show Joining.mk _ _ (σ.resume c u).puts = _
      rw [hputs]
    show Inv status (σ.resume c u)
    rw [heq]
    exact h.keep (h.wellFormed.resume_spared hspares) h.wellFormed.toPlaced.sameFinished_resume
      (Kernel.joinsNone_step (a := .resume c u) (by simp) (by simp))
  | p t s => exact hkeep ha (by simp) (by simp)
  | v t s => exact hkeep ha (by simp) (by simp)
  | ret t => exact hkeep ha (by simp) (by simp)
  | create c t st => exact hkeep ha (by simp) (by simp)
  | yield t => exact hkeep ha (by simp) (by simp)
  | suspend t u => exact hkeep ha (by simp) (by simp)
  | reschedule c => exact hkeep ha (by simp) (by simp)
  | handler c s => exact hkeep ha (by simp) (by simp)
  | priority c u prio => exact hkeep ha (by simp) (by simp)
  | update u elapsed => exact hkeep ha (by simp) (by simp)

/-- In such a state `join()` and `exit()` are right. -/
theorem Inv.joinsProperly (h : Inv status σ) (ha : σ.CanAct a) : JoinsProperly status σ a := by
  cases a with
  | ret t =>
    intro u hu
    have hrunning : σ.state t = some .running := (h.wellFormed.state_of_running ha.1).1
    cases h.settled t u hu with
    | inl hwaits =>
      rw [(h.wellFormed.joined u t hwaits.1).1] at hrunning
      cases hrunning
    | inr hput => exact ⟨hput.1, h.exited u hput.1, hput.2⟩
  | join t u => exact h.exited u
  | exit t =>
    intro j hj
    have hrunning : σ.state t = some .running := (h.wellFormed.state_of_running ha.1.1).1
    have hcall : σ.call j = some (.join t) := (h.wellFormed.joined t j hj).2
    refine ⟨hcall, ?_⟩
    cases h.settled j t hcall with
    | inl hwaits => exact hwaits.2
    | inr hput =>
      rw [hput.1] at hrunning
      cases hrunning
  | _ => trivial

/-! ## Joiners that have been resumed -/

/-- `u` is going to put `v` back, and `v` has been put back or is not in that `join()` any more. -/
def Astray (σ : Joining) (u v : Tid) : Prop :=
  σ.joining u = some v ∧ (σ.call v = some (.join u) → σ.puts v ≠ 0)

/-- A result that is there stays there. -/
theorem put_ne_zero {t v : Tid} (hv : σ.puts v ≠ 0) : σ.put t v ≠ 0 := by
  unfold put
  by_cases hvt : v = t
  · rw [hvt, Function.update_self]
    exact Nat.succ_ne_zero _
  · rwa [Function.update_of_ne hvt]

/-- A joining thread that was resumed stays astray. -/
theorem Astray.keep {v : Tid} (h : σ.Astray u v) {σ' : Joining}
    (hjoins : σ.toKernel.JoinsNone σ'.toKernel) (hputs : σ.puts v ≠ 0 → σ'.puts v ≠ 0) :
    σ'.Astray u v :=
  ⟨(congrFun hjoins.joining u).trans h.1, fun hv => hputs (h.2 (hjoins.call v u hv))⟩

/-- A joining thread that was resumed stays astray when another thread exits. -/
theorem Astray.exit {v : Tid} (h : σ.Astray u v) (hut : u ≠ t) :
    (σ.exit status t).Astray u v := by
  obtain ⟨hjoining, hcall⟩ := σ.toKernel.exit_joins t
  constructor
  · refine (congrFun hjoining u).trans (Eq.trans ?_ h.1)
    split
    · exact Function.update_of_ne hut _ _
    · rfl
  · intro hv
    have hputs := h.2 ((congrFun hcall v).symm.trans hv)
    cases hj : σ.joining t with
    | none =>
      rw [exit_puts_of_none hj]
      exact hputs
    | some j =>
      rw [exit_puts_of_some hj]
      exact put_ne_zero hputs

/-- A joining thread that was resumed stays astray when another thread joins. -/
theorem Astray.join {v : Tid} (h : σ.Astray u v) (ha : σ.toKernel.CanAct (.join t c)) :
    (σ.join t c).Astray u v := by
  by_cases hfin : σ.state c = some .finishing
  · have hsilent : σ.join t c = σ := by
      unfold Joining.join Kernel.join
      rw [if_pos hfin, if_pos hfin]
    rwa [hsilent]
  · obtain ⟨hjoining, hcall⟩ := Kernel.join_joins (t := t) hfin
    have huc : u ≠ c := by
      intro heq
      have hjoined := h.1
      rw [heq, ha.2.2.2.1] at hjoined
      cases hjoined
    refine ⟨(congrFun hjoining u).trans ((Function.update_of_ne huc _ _).trans h.1), fun hv => ?_⟩
    replace hv : Function.update σ.call t (some (.join c)) v = some (.join u) :=
      (congrFun hcall v).symm.trans hv
    have hputs : (σ.join t c).puts = Function.update σ.puts t 0 := if_neg hfin
    by_cases hvt : v = t
    · rw [hvt, Function.update_self] at hv
      cases hv
      exact absurd rfl huc
    · rw [Function.update_of_ne hvt] at hv
      rw [hputs, Function.update_of_ne hvt]
      exact h.2 hv

/-- Only the `exit()` of the joined thread ends it. -/
theorem Astray.step {v : Tid} (h : σ.Astray u v) (ha : σ.CanAct a) (hexit : a ≠ .exit u) :
    (σ.step status a).Astray u v := by
  -- a step that is neither exit() nor join() keeps v where it is
  have hkeep (hj : ∀ t u, a ≠ .join t u) (he : ∀ t, a ≠ .exit t) :
      ({ σ with toKernel := σ.toKernel.step a } : Joining).Astray u v :=
    h.keep (Kernel.joinsNone_step hj he) id
  cases a with
  | exit t => exact h.exit fun heq => hexit (heq ▸ rfl)
  | join t w => exact h.join ha
  | resume c w =>
    show (σ.resume c w).Astray u v
    -- resume() may put v back into a list, but takes nobody out
    refine h.keep (Kernel.joinsNone_step (a := .resume c w) (by simp) (by simp)) fun hv => ?_
    show (if σ.state w = some .suspended ∧ σ.parked w then σ.put w else σ.puts) v ≠ 0
    split
    · exact put_ne_zero hv
    · exact hv
  | p t s => exact hkeep (by simp) (by simp)
  | v t s => exact hkeep (by simp) (by simp)
  | ret t => exact hkeep (by simp) (by simp)
  | create c t st => exact hkeep (by simp) (by simp)
  | yield t => exact hkeep (by simp) (by simp)
  | suspend t w => exact hkeep (by simp) (by simp)
  | reschedule c => exact hkeep (by simp) (by simp)
  | handler c s => exact hkeep (by simp) (by simp)
  | priority c w prio => exact hkeep (by simp) (by simp)
  | update w elapsed => exact hkeep (by simp) (by simp)

/-- The exit of `u` is not what it should be. -/
theorem Astray.not_meets {v : Tid} {as : List Action} (h : σ.Astray u v)
    (hv : (joins status).Valid σ as) (hend : ((joins status).run σ as).joining u = none) :
    ¬(joins status).Meets (JoinsProperly status) σ as := by
  induction as generalizing σ with
  | nil =>
    have hjoined : σ.joining u = none := hend
    rw [h.1] at hjoined
    cases hjoined
  | cons a as ih =>
    intro ⟨hproper, hrest⟩
    by_cases hexit : a = .exit u
    · subst hexit
      obtain ⟨hcall, hputs⟩ := hproper v h.1
      exact h.2 hcall hputs
    · exact ih (h.step hv.1 hexit) hv.2 hend hrest

/-- A joiner that is resumed is put back once more by the exit. -/
theorem astray_resume (hst : σ.state t = some .suspended) (hparked : σ.parked t = true) :
    ∃ u, (σ.resume c t).Astray u t := by
  unfold Kernel.parked at hparked
  split at hparked
  · next u hcall =>
    have hjoins := Kernel.joinsNone_step (k := σ.toKernel) (a := .resume c t) (by simp) (by simp)
    refine ⟨u, (congrFun hjoins.joining u).trans (of_decide_eq_true hparked), fun _ => ?_⟩
    have hputs : (σ.resume c t).puts = σ.put t := by
      refine if_pos ⟨hst, ?_⟩
      rw [Kernel.parked, hcall]
      exact hparked
    rw [hputs, put, Function.update_self]
    exact Nat.succ_ne_zero _
  · cases hparked

/-- A run in which all joins end properly resumes no joining thread. -/
theorem spares_of_joinsProperly {as : List Action} (hv : (joins status).Valid σ as)
    (hend : ∀ u, ((joins status).run σ as).joining u = none)
    (hproper : (joins status).Meets (JoinsProperly status) σ as) :
    (joins status).Meets Spares σ as := by
  induction as generalizing σ with
  | nil => trivial
  | cons a as ih =>
    refine ⟨?_, ih hv.2 hend hproper.2⟩
    cases a with
    | resume c t =>
      intro hst
      by_cases hparked : σ.parked t = true
      · obtain ⟨u, hastray⟩ := astray_resume (c := c) hst hparked
        exact absurd hproper.2 (hastray.not_meets hv.2 (hend u))
      · exact Bool.eq_false_iff.mpr hparked
    | _ => trivial

end Joining

open Joining

/-- In the runs in which no thread is resumed that waits in its `join()`, every `join()` returns
    after the exit of its thread, with its status, every joiner is put back once, and no thread
    stands in a ready list twice. There are no others in which all threads that are joined exit. -/
theorem joins_properly_iff (status : Tid → Int) (σ : Joining) (as : List Action)
    (hinit : (joins status).Init σ) (hv : (joins status).Valid σ as) :
    ((joins status).Meets Spares σ as →
      (joins status).Meets (JoinsProperly status) σ as ∧
        (joins status).Always (fun σ => ∀ c, (σ.sched c).toList.Nodup) σ as) ∧
    ((∀ u, ((joins status).run σ as).joining u = none) →
      ((joins status).Meets (JoinsProperly status) σ as ↔ (joins status).Meets Spares σ as)) := by
  have hinv : Inv status σ := by
    refine ⟨hinit.1.toWellFormed, fun t u ht => ?_, fun u hu => absurd hu (hinit.2 u)⟩
    rw [hinit.1.call_none t] at ht
    cases ht
  have hstep (σ : Joining) (a : Action) (h : Inv status σ) (ha : (joins status).Enabled σ a)
      (hs : Spares σ a) : Inv status ((joins status).next σ a) :=
    h.step ha hs
  have hproper (hspares : (joins status).Meets Spares σ as) :
      (joins status).Meets (JoinsProperly status) σ as :=
    TransitionSystem.Meets.meets hstep (fun _ _ h ha _ => h.joinsProperly ha) hinv hv hspares
  refine ⟨fun hspares => ⟨hproper hspares, ?_⟩, fun hend => ⟨?_, hproper⟩⟩
  · exact (TransitionSystem.Meets.always hstep hinv hv hspares).imp fun _ h => h.wellFormed.nodup
  · exact spares_of_joinsProperly hv hend

/-- Thread 9 runs on a single core, and every thread exits with its number. -/
def beforeJoins : Joining where
  toKernel := Kernel.pipKernel
  stack _ := 0

/-- The kernel of the example starts without joins. -/
theorem beforeJoins_init : (joins fun t => t).Init beforeJoins := by
  refine ⟨Kernel.pipKernel_boot, fun t => ?_⟩
  show Function.update (Function.update (fun _ => none) 8 (some State.ready)) 9
    (some State.running) t ≠ some .finishing
  rw [Function.update_apply, Function.update_apply]
  split
  · simp
  · split <;> simp

/-- Thread 9 joins thread 12, which resumes thread 13 and exits. -/
theorem joins_properly_iff_resume :
    (joins fun t => t).Meets (JoinsProperly fun t => t) beforeJoins
        [.create 0 12 .ready, .create 0 13 .suspended, .join 9 12, .resume 0 13, .exit 12, .ret 9] ∧
      (joins fun t => t).Always (fun σ => ∀ c, (σ.sched c).toList.Nodup) beforeJoins
        [.create 0 12 .ready, .create 0 13 .suspended, .join 9 12, .resume 0 13, .exit 12,
          .ret 9] := by
  refine (joins_properly_iff (fun t => t) beforeJoins _ beforeJoins_init ?_).1 ?_
  · exact ⟨(by decide : Kernel.CanAct _ (.create 0 12 .ready)),
      (by decide : Kernel.CanAct _ (.create 0 13 .suspended)),
      (by decide : Kernel.CanAct _ (.join 9 12)), Nat.one_pos,
      (by decide : Kernel.CanAct _ (.exit 12)), (by decide : Kernel.CanAct _ (.ret 9)), trivial⟩
  · exact ⟨trivial, trivial, trivial, fun _ => rfl, trivial, trivial, trivial⟩

/-- Thread 12 resumes thread 9, which returns from its `join()` before thread 12 exits. And thread 3
    resumes thread 9 and exits, and thread 9 stands in its ready list twice. -/
theorem not_joins_properly :
    ((joins fun t => t).Init beforeJoins ∧
      (joins fun t => t).Valid beforeJoins
        [.create 0 12 .ready, .join 9 12, .resume 0 9, .ret 9] ∧
      ¬(joins fun t => t).Meets (JoinsProperly fun t => t) beforeJoins
        [.create 0 12 .ready, .join 9 12, .resume 0 9, .ret 9]) ∧
    ((joins fun t => t).Valid beforeJoins
        [.create 0 3 .ready, .suspend 3 3, .join 9 3, .resume 0 3, .resume 0 9, .exit 3] ∧
      ¬(joins fun t => t).Meets (JoinsProperly fun t => t) beforeJoins
        [.create 0 3 .ready, .suspend 3 3, .join 9 3, .resume 0 3, .resume 0 9, .exit 3] ∧
      ¬(((joins fun t => t).run beforeJoins
        [.create 0 3 .ready, .suspend 3 3, .join 9 3, .resume 0 3, .resume 0 9,
          .exit 3]).sched 0).toList.Nodup) := by
  refine ⟨⟨beforeJoins_init, ?_, ?_⟩, ?_, ?_, by decide⟩
  · exact ⟨(by decide : Kernel.CanAct _ (.create 0 12 .ready)),
      (by decide : Kernel.CanAct _ (.join 9 12)), Nat.one_pos,
      (by decide : Kernel.CanAct _ (.ret 9)), trivial⟩
  · intro ⟨_, _, _, hret, _⟩
    exact absurd (hret 12 rfl).1 (by decide)
  · exact ⟨(by decide : Kernel.CanAct _ (.create 0 3 .ready)),
      (by decide : Kernel.CanAct _ (.suspend 3 3)), (by decide : Kernel.CanAct _ (.join 9 3)),
      Nat.one_pos, Nat.one_pos, (by decide : Kernel.CanAct _ (.exit 3)), trivial⟩
  · intro ⟨_, _, _, _, _, hexit, _⟩
    exact absurd (hexit 9 rfl).2 (by decide)

end Epos
