import Epos.Spec.HeldResources
import Epos.Spec.SortedQueues
import Epos.Spec.SystemCeiling

/-!
# SRP never blocks inside `p()`

While a resource is taken, its ceiling is at least the level of every other task that
is declared for it (`SrpInv.ceiling_le`), and the system ceiling is at least that
(`system_le`). So a thread that `choose()` takes for its level is declared for no
resource that another thread holds, and the running thread never is (`open_running`).

`Scheduling_List::remove` takes the head of the ready list without asking the elector,
and the elector admits some threads whatever their level. The law holds in the runs in
which no declared user of a taken resource gets the core that way.
-/

namespace Epos

namespace Kernel

variable {k k' k'' k₁ : Kernel} {c : Nat} {s : Sid} {t u r n x : Tid} {st : State}

/-! ## Usage -/

/-- How threads use SRP resources: they are declared for them with a positive level,
    release the latest first, and neither sleep, yield, exit nor are suspended
    inside. -/
def Declared (k : Kernel) : Action → Prop
  | .p t s =>
    if (k.sem s).protocol = .srp then t ∈ (k.sem s).tasks ∧ 0 < k.level t
    else (k.toSync.p s t).2 = true → k.inside t = []
  | .v t s => (k.sem s).protocol = .srp → (k.inside t).head? = some s
  | .join t u => k.state u ≠ some .finishing → k.inside t = []
  | .yield t | .exit t => k.inside t = []
  | .suspend _ u => k.inside u = []
  | .ret _ | .create _ _ _ | .resume _ _ | .reschedule _ | .handler _ _ | .priority _ _ _
  | .update _ _ => True

instance (k : Kernel) (a : Action) : Decidable (k.Declared a) :=
  match a with
  | .p t s =>
    inferInstanceAs (Decidable (if (k.sem s).protocol = .srp then
      t ∈ (k.sem s).tasks ∧ 0 < k.level t
      else (k.toSync.p s t).2 = true → k.inside t = []))
  | .v t s =>
    inferInstanceAs (Decidable ((k.sem s).protocol = .srp → (k.inside t).head? = some s))
  | .join t u =>
    inferInstanceAs (Decidable (k.state u ≠ some .finishing → k.inside t = []))
  | .yield t | .exit t => inferInstanceAs (Decidable (k.inside t = []))
  | .suspend _ u => inferInstanceAs (Decidable (k.inside u = []))
  | .ret _ | .create _ _ _ | .resume _ _ | .reschedule _ | .handler _ _ | .priority _ _ _
  | .update _ _ => isTrue trivial

/-- A more urgent priority comes with a strictly higher level. -/
def LevelsByUrgency (k : Kernel) : Prop :=
  ∀ t u, k.priority t < k.priority u → k.level u < k.level t

/-- The live resources keep their ceilings in places of their own. -/
def OwnCells (k : Kernel) : Prop :=
  ∀ s ∈ k.srpResources, ∀ s' ∈ k.srpResources,
    (k.sem s).ceilings = (k.sem s').ceilings → s = s'

/-! ## The condition -/

/-- `x` is declared for a resource that another thread has taken. -/
def Shut (k : Kernel) (x : Tid) : Prop :=
  ∃ s ∈ k.srpResources, x ∈ (k.sem s).tasks ∧ (k.sem s).value < 1 ∧ s ∉ k.inside x

/-- While `r` runs, the elector admits `x` without comparing levels. -/
def Waves (k : Kernel) (r x : Tid) : Prop :=
  k.priority x = Priority.idle ∨ k.priority x = Priority.main ∨ k.level r = 0

/-- The head of `l` is not declared for a resource that another thread has taken. -/
def Opens (k : Kernel) (l : List Tid) : Prop :=
  ∀ x ∈ l.head?, ¬k.Shut x

/-- Unless the elector compares its level, nor is the head of `l` while `r` runs. -/
def OpensTo (k : Kernel) (r : Tid) (l : List Tid) : Prop :=
  ∀ x ∈ l.head?, k.Waves r x → ¬k.Shut x

/-- The ready list with the thread that waits longest for `s`. -/
def readyWith (k : Kernel) (s : Sid) : List Tid :=
  match (k.sem s).queue with
  | [] => []
  | u :: _ => (k.sched 0).list.insertRank k.priority u

/-- The ready list when `t` has exited and the thread that joined it is ready. -/
def readyAfter (k : Kernel) (t : Tid) : List Tid :=
  match k.joining t with
  | none => (k.sched 0).list.tail
  | some j => (k.sched 0).list.tail.insertRank k.priority j

/-- A thread that gets the core without a comparison of its level is not declared for
    a resource that another thread has taken: the head that `remove()` takes when the
    running thread leaves, and the head that the elector waves through. No `p()` is
    called on a resource that the caller holds. -/
def Admits (k : Kernel) : Action → Prop
  | .p t s =>
    if (k.sem s).protocol = .srp then s ∉ k.inside t
    else (k.toSync.p s t).2 = true → k.Opens (k.sched 0).list
  | .exit t =>
    k.Opens (k.sched 0).list ∧ ∀ x ∈ (k.sched 0).list.head?, k.OpensTo x (k.readyAfter t)
  | .join _ u => k.state u ≠ some .finishing → k.Opens (k.sched 0).list
  | .suspend t u => u = t → k.Opens (k.sched 0).list
  | .v t s => k.OpensTo t (k.readyWith s)
  | .handler _ s => ∀ r ∈ k.running 0, k.OpensTo r (k.readyWith s)
  | .create _ t st =>
    st = .ready → ∀ r ∈ k.running 0, k.OpensTo r ((k.sched 0).list.insertRank k.priority t)
  | .resume _ u => k.state u = some .suspended →
    ∀ r ∈ k.running 0, k.OpensTo r ((k.sched 0).list.insertRank k.priority u)
  | .reschedule _ => ∀ r ∈ k.running 0, k.OpensTo r (k.sched 0).list
  | .yield t => k.OpensTo t (k.sched 0).list
  | .ret _ | .priority _ _ _ | .update _ _ => True

instance (k : Kernel) (x : Tid) : Decidable (k.Shut x) :=
  inferInstanceAs (Decidable (∃ s ∈ k.srpResources, _))

instance (k : Kernel) (r x : Tid) : Decidable (k.Waves r x) :=
  inferInstanceAs (Decidable (_ ∨ _ ∨ _))

instance (k : Kernel) (l : List Tid) : Decidable (k.Opens l) :=
  inferInstanceAs (Decidable (∀ x ∈ l.head?, _))

instance (k : Kernel) (r : Tid) (l : List Tid) : Decidable (k.OpensTo r l) :=
  inferInstanceAs (Decidable (∀ x ∈ l.head?, _))

instance (k : Kernel) (a : Action) : Decidable (k.Admits a) := by
  cases a <;> unfold Admits <;> infer_instance

/-- A `p()` on a resource finds it free and does not sleep. -/
def FindsFree (k : Kernel) (a : Action) : Prop :=
  ∀ t s, a = .p t s → (k.sem s).protocol = .srp →
    1 ≤ (k.sem s).value ∧ (k.toSync.p s t).2 = false

/-! ## The invariant -/

structure SrpInv (k : Kernel) : Prop where
  wellFormed : k.WellFormed
  counted : k.toSync.Counted
  oneCore : k.OneCore
  elector : k.elector = .srp
  live : ∀ s, (k.sem s).protocol = .srp ↔ s ∈ k.srpResources
  kind : ∀ s, (k.sem s).protocol = .srp ∨ ¬(k.sem s).protocol.resource
  cells : k.OwnCells
  free : ∀ s, (k.sem s).protocol = .srp → (∀ t, s ∉ k.inside t) → (k.sem s).value = 1
  taken : ∀ s t, s ∈ k.inside t → (k.sem s).protocol = .srp ∧ (k.sem s).value = 0
  alone : ∀ s t u, s ∈ k.inside t → s ∈ k.inside u → t = u
  inside_nodup : ∀ t, (k.inside t).Nodup
  holder : ∀ t, k.inside t ≠ [] → k.Schedulable t
  ceiling_le : ∀ s t, s ∈ k.inside t → ∀ u ∈ (k.sem s).tasks, u ≠ t → k.level u ≤ k.ceiling s
  system_le : ∀ s t, s ∈ k.inside t → k.ceiling s ≤ k.srpCeiling
  calls : ∀ t s, k.call t = some (.p s) ∨ k.call t = some (.v s) → (k.sem s).protocol ≠ .srp
  open_running : ∀ r, k.running 0 = some r → ¬k.Shut r

/-- A thread whose level is above the system ceiling is declared for no resource that
    another thread holds. -/
theorem SrpInv.not_shut (h : k.SrpInv) (hlt : k.srpCeiling < k.level x) : ¬k.Shut x := by
  rintro ⟨s, hs, hx, hv, hnot⟩
  have hsrp := (h.live s).mpr hs
  -- somebody holds the resource
  by_cases hex : ∃ t, s ∈ k.inside t
  · obtain ⟨t, ht⟩ := hex
    have hne : x ≠ t := fun heq => hnot (heq ▸ ht)
    have h₁ := h.ceiling_le s t ht x hx hne
    have h₂ := h.system_le s t ht
    omega
  · have := h.free s hsrp fun t ht => hex ⟨t, ht⟩
    omega

/-- Where nobody is inside, `value` is 1. -/
theorem SrpInv.value_eq (h : k.SrpInv) (hs : (k.sem s).protocol = .srp)
    (hopen : ¬k.Shut t) (ht : t ∈ (k.sem s).tasks) (hnot : s ∉ k.inside t) :
    (k.sem s).value = 1 ∧ ∀ u, s ∉ k.inside u := by
  have hnone (u : Tid) : s ∉ k.inside u := by
    intro hu
    apply hopen
    have hv := (h.taken s u hu).2
    exact ⟨s, (h.live s).mp hs, ht, by omega, hnot⟩
  exact ⟨h.free s hs hnone, hnone⟩

/-! ## Steps that leave the resources alone -/

/-- Nothing that belongs to an SRP resource changes. -/
structure Undisturbed (k k' : Kernel) : Prop where
  sem : ∀ s, (k.sem s).protocol = .srp → k'.sem s = k.sem s
  store : k'.store = k.store
  system : k'.srpCeiling = k.srpCeiling
  inside : k'.inside = k.inside
  call : ∀ t s, (k.sem s).protocol = .srp → k'.call t = some (.p s) ∨ k'.call t = some (.v s) →
    k.call t = some (.p s) ∨ k.call t = some (.v s)

theorem Undisturbed.refl (k : Kernel) : Undisturbed k k :=
  ⟨fun _ _ => rfl, rfl, rfl, rfl, fun _ _ _ h => h⟩

theorem Undisturbed.trans (h : Undisturbed k k') (h' : Undisturbed k' k'') :
    Undisturbed k k'' := by
  have hsrp {s : Sid} (hs : (k.sem s).protocol = .srp) : (k'.sem s).protocol = .srp := by
    rw [h.sem s hs]
    exact hs
  constructor
  case sem => exact fun s hs => (h'.sem s (hsrp hs)).trans (h.sem s hs)
  case store => exact h'.store.trans h.store
  case system => exact h'.system.trans h.system
  case inside => exact h'.inside.trans h.inside
  case call => exact fun t s hs hc => h.call t s hs (h'.call t s (hsrp hs) hc)

/-- A move disturbs no resource. -/
theorem Frame.undisturbed (h : Frame k k') : Undisturbed k k' := by
  obtain ⟨_, _, rfl⟩ := h
  exact ⟨fun _ _ => rfl, rfl, rfl, rfl, fun _ _ _ h => h⟩

/-- `t` ends its call, or enters one that is not about a resource. -/
theorem Undisturbed.setCall (h : Undisturbed k k') {call : Option Call}
    (hcall : ∀ s, (k.sem s).protocol = .srp → call ≠ some (.p s) ∧ call ≠ some (.v s)) :
    Undisturbed k { k' with call := Function.update k'.call t call } := by
  refine ⟨h.sem, h.store, h.system, h.inside, fun x s hs hc => ?_⟩
  by_cases hx : x = t
  · subst hx
    simp only [Function.update_self] at hc
    rcases hc with hc | hc
    · exact absurd hc (hcall s hs).1
    · exact absurd hc (hcall s hs).2
  · simp only [Function.update_of_ne hx] at hc
    exact h.call x s hs hc

/-- The invariant when no resource is disturbed. -/
theorem SrpInv.of_undisturbed (h : k.SrpInv) (hu : Undisturbed k k') (hwf : k'.WellFormed)
    (hcount : k'.toSync.Counted) (hsys : k'.toSystem = k.toSystem)
    (hprot : ∀ s, (k'.sem s).protocol = (k.sem s).protocol)
    (hholder : ∀ t, k.inside t ≠ [] → k'.Schedulable t)
    (hopen : ∀ n, k'.running 0 = some n → ¬k.Shut n) : k'.SrpInv := by
  -- the semaphores of all resources, held or not, are the same
  have hlive (s : Sid) (hs : s ∈ k.srpResources) : k'.sem s = k.sem s :=
    hu.sem s ((h.live s).mpr hs)
  have hheld {s : Sid} {t : Tid} (hs : s ∈ k.inside t) : k'.sem s = k.sem s :=
    hu.sem s (h.taken s t hs).1
  have hceil {s : Sid} (hs : k'.sem s = k.sem s) : k'.ceiling s = k.ceiling s := by
    simp only [Sync.ceiling, hs, hu.store]
  constructor
  case wellFormed => exact hwf
  case counted => exact hcount
  case oneCore => exact h.oneCore.congr hsys
  case elector => rw [hsys]; exact h.elector
  case live => exact fun s => by rw [hprot, hsys]; exact h.live s
  case kind => exact fun s => by rw [hprot]; exact h.kind s
  case cells =>
    intro s hs s' hs' heq
    rw [hsys] at hs hs'
    rw [hlive s hs, hlive s' hs'] at heq
    exact h.cells s hs s' hs' heq
  case free =>
    intro s hs hnone
    rw [hprot] at hs
    rw [hu.inside] at hnone
    rw [hu.sem s hs]
    exact h.free s hs hnone
  case taken =>
    intro s t hs
    rw [hu.inside] at hs
    rw [hheld hs]
    exact h.taken s t hs
  case alone => exact fun s t u => by rw [hu.inside]; exact h.alone s t u
  case inside_nodup => exact fun t => by rw [hu.inside]; exact h.inside_nodup t
  case holder => exact fun t ht => hholder t (by rwa [hu.inside] at ht)
  case ceiling_le =>
    intro s t hs u htask hne
    rw [hu.inside] at hs
    rw [hheld hs] at htask
    rw [hceil (hheld hs), hsys]
    exact h.ceiling_le s t hs u htask hne
  case system_le =>
    intro s t hs
    rw [hu.inside] at hs
    rw [hceil (hheld hs), hu.system]
    exact h.system_le s t hs
  case calls =>
    intro t s hc hs
    rw [hprot] at hs
    exact h.calls t s (hu.call t s hs hc) hs
  case open_running =>
    rintro n hn ⟨s, hs, htask, hv, hnot⟩
    rw [hsys] at hs
    rw [hlive s hs] at htask hv
    rw [hu.inside] at hnot
    exact hopen n hn ⟨s, hs, htask, hv, hnot⟩

/-- Only the return from a call on a resource does more than end the call. -/
theorem SrpInv.complete_eq (h : k.SrpInv) (hu : Undisturbed k k')
    (hprot : ∀ s, (k'.sem s).protocol = (k.sem s).protocol) : k'.complete t = k'.endCall t := by
  have hcalls (s : Sid) (hc : k'.call t = some (.p s) ∨ k'.call t = some (.v s)) :
      (k.sem s).protocol ≠ .srp := fun hs => h.calls t s (hu.call t s hs hc) hs
  -- only the end of a call on a resource updates ceilings
  have hceil (s : Sid) (hs : (k.sem s).protocol ≠ .srp) :
      (k'.endCall t).updateCeiling s = k'.endCall t := by
    have hnot : ¬(k.sem s).protocol.resource := (h.kind s).resolve_left hs
    rw [← hprot] at hs hnot
    refine updateCeiling_eq_self (k := k'.endCall t) hs fun hm => hnot ?_
    rw [show (k'.sem s).protocol = .msrp from hm]
    rfl
  unfold Kernel.complete
  split
  · rename_i s hcall
    have hs := hcalls s (.inl hcall)
    dsimp only
    rw [hceil s hs]
    refine if_neg ?_
    show ¬(k'.sem s).protocol.resource
    rw [hprot]
    exact (h.kind s).resolve_left hs
  · rename_i s hcall
    exact hceil s (hcalls s (.inr hcall))
  · rfl
  · rfl

/-! ## Who gets the core -/

/-- Who is eligible while `r` runs. -/
theorem eligible_srp (hel : k.elector = .srp) (hr : k.running c = some r) :
    k.eligible c x ↔ k.Waves r x ∨ k.srpCeiling < k.level x := by
  unfold eligible Waves
  rw [hel, hr]
  simp [or_assoc]

/-- A `choose()` in a kernel `k₁` with the priorities and ceilings of `k`. -/
theorem SrpInv.open_choose (h : k.SrpInv) (hsys : k₁.toSystem = k.toSystem)
    (hprio : k₁.priority = k.priority) (hceil : k₁.srpCeiling = k.srpCeiling)
    (hr : k₁.running 0 = some r) (hto : k.OpensTo r (k₁.sched 0).list)
    (hhead : (k₁.sched 0).list.head? = some n) (hel : k₁.eligible 0 n) : ¬k.Shut n := by
  rw [eligible_srp (by rw [hsys]; exact h.elector) hr] at hel
  rcases hel with hw | hlt
  · apply hto n hhead
    simpa only [Waves, hprio, hsys] using hw
  · apply h.not_shut
    rwa [hceil, hsys] at hlt

/-- Rescheduling from an open thread chooses an open one. -/
theorem SrpInv.open_reschedule (h : k.SrpInv) (hsys : k₁.toSystem = k.toSystem)
    (hprio : k₁.priority = k.priority) (hceil : k₁.srpCeiling = k.srpCeiling)
    (hr : k₁.running 0 = some r) (hopen : ¬k.Shut r) (hto : k.OpensTo r (k₁.sched 0).list)
    (hn : (k₁.reschedule 0).running 0 = some n) : ¬k.Shut n := by
  rw [running, reschedule_sched hr, if_pos rfl] at hn
  rcases SchedulingList.choose_cases hr hn with rfl | ⟨hhead, hel⟩
  · exact hopen
  · exact h.open_choose hsys hprio hceil hr hto hhead hel

/-- A thread `u` becomes ready while `r` runs. -/
theorem SrpInv.open_enter (h : k.SrpInv) (hsys : k₁.toSystem = k.toSystem)
    (hprio : k₁.priority = k.priority) (hceil : k₁.srpCeiling = k.srpCeiling)
    (hr : k₁.running 0 = some r) (hopen : ¬k.Shut r)
    (hto : k.OpensTo r ((k₁.sched 0).list.insertRank k.priority u))
    (hn : (k₁.enter 0 u).running 0 = some n) : ¬k.Shut n := by
  have h₁ : k₁.OneCore := h.oneCore.congr hsys
  have hcore : k₁.core u = 0 := h₁.core u
  have hlist : (((k₁.setState u .ready).insert u).sched 0).list =
      (k₁.sched 0).list.insertRank k.priority u := by
    rw [insert_sched, ← hprio]
    show (if 0 = k₁.core u then (k₁.sched (k₁.core u)).insert k₁.priority u
      else k₁.sched 0).list = _
    rw [hcore, if_pos rfl, SchedulingList.insert_chosen hr]
  have hrun : ((k₁.setState u .ready).insert u).running 0 = some r := by
    rw [insert_running]
    · exact hr
    · show (k₁.running (k₁.core u)).isSome
      rw [hcore, hr]
      rfl
  rw [h₁.enter_eq] at hn
  rw [← hlist] at hto
  exact h.open_reschedule (show ((k₁.setState u .ready).insert u).toSystem = k.toSystem from hsys)
    hprio hceil hrun hopen hto hn

/-- The running thread leaves. -/
theorem SrpInv.open_leave (h : k.SrpInv) (hsys : k₁.toSystem = k.toSystem)
    (hsched : k₁.sched = k.sched) (hr : k.running 0 = some t) (ho : k.Opens (k.sched 0).list)
    (hn : (k₁.leave t st).running 0 = some n) : ¬k.Shut n := by
  have hcore : k₁.core t = 0 := by rw [hsys]; exact h.oneCore.core t
  rw [running, leave_sched, hcore, if_pos rfl, hsched, SchedulingList.remove_chosen hr] at hn
  exact ho n hn

/-! ## The other steps -/

/-- `p()` on a semaphore that is not a resource, up to its `sleep()`. -/
theorem SrpInv.undisturbed_p (h : k.SrpInv) (hs : (k.sem s).protocol ≠ .srp) :
    Undisturbed k (k.callP t s) := by
  obtain ⟨-, hstore, hsem⟩ := Sync.p_of_not_owned (t := t)
    (owned_of_not_resource ((h.kind s).resolve_left hs))
  have hsync : Undisturbed k { k with toSync := (k.toSync.p s t).1 } := by
    refine ⟨fun s' hs' => hsem s' ?_, hstore, rfl, rfl, fun _ _ _ hc => hc⟩
    rintro rfl
    exact hs hs'
  apply hsync.setCall
  intro s' hs'
  constructor
  · rintro heq
    obtain rfl : s = s' := by simpa using heq
    exact hs hs'
  · rintro heq
    cases heq

/-- `v()` on such a semaphore, up to its `wakeup()`, from a thread or a handler. -/
theorem SrpInv.undisturbed_v (h : k.SrpInv) (hs : (k.sem s).protocol ≠ .srp) :
    Undisturbed k (k.callV t s) ∧ Undisturbed k (k.interruptV t s) ∧
      (k.toSync.v s t).1.priority = k.priority := by
  obtain ⟨hprio, hstore, hsem⟩ := Sync.v_of_not_owned (t := t)
    (owned_of_not_resource ((h.kind s).resolve_left hs))
  have hsync : Undisturbed k (k.interruptV t s) := by
    refine ⟨fun s' hs' => hsem s' ?_, hstore, rfl, rfl, fun _ _ _ hc => hc⟩
    rintro rfl
    exact hs hs'
  refine ⟨?_, hsync, hprio⟩
  have hins : (k.inside t).erase s = k.inside t :=
    List.erase_of_not_mem fun hmem => hs (h.taken s t hmem).1
  have hcall : Undisturbed k { k.interruptV t s with call := Function.update k.call t (some (.v s)) } := by
    apply hsync.setCall
    intro s' hs'
    constructor
    · rintro heq
      cases heq
    · rintro heq
      obtain rfl : s = s' := by simpa using heq
      exact hs hs'
  refine ⟨hcall.sem, hcall.store, hcall.system, ?_, hcall.call⟩
  show Function.update k.inside t ((k.inside t).erase s) = k.inside
  rw [hins, Function.update_eq_self]

/-- The end of a call disturbs no resource. -/
theorem undisturbed_endCall (h : Undisturbed k k') : Undisturbed k (k'.endCall t) :=
  h.setCall fun _ _ => ⟨by simp, by simp⟩

/-- A step that leaves the resources alone and opens the core to nobody who is shut out. -/
def Quiet (k k' : Kernel) : Prop :=
  Undisturbed k k' ∧ ∀ n, k'.running 0 = some n → ¬k.Shut n

/-- A thread that is still running after the step was not shut out before. -/
theorem SrpInv.quiet_same (h : k.SrpInv) (hu : Undisturbed k k') (hrun : k'.running = k.running) :
    Quiet k k' :=
  ⟨hu, fun n hn => h.open_running n (by rwa [hrun] at hn)⟩

/-- The end of a call on another semaphore is quiet. -/
theorem SrpInv.quiet_complete (h : k.SrpInv) (hq : Quiet k k')
    (hprot : ∀ s, (k'.sem s).protocol = (k.sem s).protocol) : Quiet k (k'.complete t) := by
  rw [h.complete_eq hq.1 hprot]
  exact ⟨undisturbed_endCall hq.1, hq.2⟩

/-- `p()` on a semaphore that is no resource is quiet. -/
theorem SrpInv.quiet_p (h : k.SrpInv) (hr : k.running 0 = some t)
    (hs : (k.sem s).protocol ≠ .srp) (hc : k.Admits (.p t s)) : Quiet k (k.p t s) := by
  simp only [Admits, hs, if_false] at hc
  have hu : Undisturbed k (k.callP t s) := h.undisturbed_p hs
  unfold Kernel.p
  split
  · rename_i hsleeps
    refine ⟨hu.trans (frame_leave _ _ _).undisturbed, fun n hn => ?_⟩
    exact h.open_leave (show (k.callP t s).toSystem = k.toSystem from rfl) rfl hr (hc hsleeps) hn
  · apply h.quiet_complete (h.quiet_same hu rfl)
    exact fun s' => Sync.p_protocol k.toSync s t s'

/-- The thread that `v()` wakes up heads the queue. -/
theorem SrpInv.opensTo_woken (h : k.SrpInv) (hw : (k.toSync.v s t).2 = some u)
    (hto : k.OpensTo r (k.readyWith s)) :
    k.OpensTo r ((k.sched 0).list.insertRank k.priority u) := by
  rw [h.counted.v_woken] at hw
  unfold readyWith at hto
  split at hto
  · rename_i hq
    rw [hq] at hw
    cases hw
  · rename_i u' q hq
    rw [hq] at hw
    obtain rfl := Option.some.inj hw
    exact hto

/-- `v()` on a semaphore that is no resource is quiet. -/
theorem SrpInv.quiet_v (h : k.SrpInv) (hr : k.running 0 = some t)
    (hs : (k.sem s).protocol ≠ .srp) (hc : k.Admits (.v t s)) : Quiet k (k.v t s) := by
  obtain ⟨hu, -, hprio⟩ := h.undisturbed_v (t := t) hs
  have hprot (s' : Sid) : ((k.callV t s).sem s').protocol = (k.sem s').protocol :=
    Sync.v_protocol k.toSync s t s'
  unfold Kernel.v
  split
  · exact h.quiet_complete (h.quiet_same hu rfl) hprot
  · rename_i u hw
    have hframe := frame_enter (k.callV t s) (k.core t) u
    have hq : Quiet k ((k.callV t s).enter (k.core t) u) := by
      refine ⟨hu.trans hframe.undisturbed, fun n hn => ?_⟩
      rw [h.oneCore.core t] at hn
      exact h.open_enter (show (k.callV t s).toSystem = k.toSystem from rfl) hprio rfl hr
        (h.open_running t hr) (h.opensTo_woken hw hc) hn
    dsimp only
    split
    · apply h.quiet_complete hq
      intro s'
      rw [hframe.toSync]
      exact hprot s'
    · exact hq

/-- A handler is quiet. -/
theorem SrpInv.quiet_handler (h : k.SrpInv) (hs : (k.sem s).protocol ≠ .srp)
    (hc : k.Admits (.handler 0 s)) : Quiet k (k.handler 0 s) := by
  unfold Kernel.handler
  split
  · exact h.quiet_same (.refl k) rfl
  · rename_i r hr
    obtain ⟨-, hu, hprio⟩ := h.undisturbed_v (t := r) hs
    split
    · exact h.quiet_same hu rfl
    · rename_i u hw
      refine ⟨hu.trans (frame_enter _ _ _).undisturbed, fun n hn => ?_⟩
      exact h.open_enter (show (k.interruptV r s).toSystem = k.toSystem from rfl) hprio rfl hr
        (h.open_running r hr) (h.opensTo_woken hw (hc r hr)) hn

/-- The constructor of a thread is quiet. -/
theorem SrpInv.quiet_create (h : k.SrpInv) (ha : k.CanAct (.create 0 t st))
    (hc : k.Admits (.create 0 t st)) : Quiet k (k.create 0 t st) := by
  obtain ⟨r, hr⟩ := Option.isSome_iff_exists.mp (h.wellFormed.isSome 0 ha.1)
  obtain ⟨hns, -, -⟩ := h.wellFormed.unborn ha.2.1
  rcases ha.2.2.2 with rfl | rfl
  · have hframe : Frame k ((k.setState t .ready).insert t) :=
      (frame_setState _ _ _).trans (frame_setSched _ _ _)
    have henter : ((k.setState t .ready).insert t).preempt 0 (k.core t) = k.enter 0 t := rfl
    unfold Kernel.create
    simp only [ne_eq, not_true_eq_false, reduceCtorEq, false_and, if_false]
    split
    · refine ⟨hframe.undisturbed.trans (frame_preempt _ _ _).undisturbed, fun n hn => ?_⟩
      exact h.open_enter rfl rfl rfl hr (h.open_running r hr) (hc rfl r hr) hn
    · refine ⟨hframe.undisturbed, fun n hn => h.open_running n ?_⟩
      rwa [insert_running] at hn
      exact h.wellFormed.isSome _ ha.2.2.1
  · rw [create_suspended h.wellFormed.toPlaced hns ha.2.2.1]
    exact h.quiet_same (frame_setState _ _ _).undisturbed rfl

/-- `yield()` is quiet. -/
theorem SrpInv.quiet_yield (h : k.SrpInv) (hr : k.running 0 = some t)
    (hc : k.Admits (.yield t)) : Quiet k (k.yield t) := by
  refine ⟨(frame_yield k t).undisturbed, fun n hn => ?_⟩
  rw [running, yield_sched, h.oneCore.core t, if_pos rfl] at hn
  rcases SchedulingList.chooseAnother_cases hr hn with rfl | ⟨hhead, hel⟩
  · exact h.open_running n hr
  · exact h.open_choose rfl rfl rfl hr hc hhead hel

/-- `join()` is quiet. -/
theorem SrpInv.quiet_join (h : k.SrpInv) (hr : k.running 0 = some t)
    (hc : k.Admits (.join t u)) : Quiet k (k.join t u) := by
  unfold Kernel.join
  split
  · exact h.quiet_same (.refl k) rfl
  · rename_i hfin
    have hcall : Undisturbed k { k with call := Function.update k.call t (some (.join u)) } :=
      (Undisturbed.refl k).setCall fun _ _ => ⟨by simp, by simp⟩
    have hu : Undisturbed k (k.callJoin t u) :=
      ⟨hcall.sem, hcall.store, hcall.system, hcall.inside, hcall.call⟩
    refine ⟨hu.trans (frame_leave _ _ _).undisturbed, fun n hn => ?_⟩
    exact h.open_leave (show (k.callJoin t u).toSystem = k.toSystem from rfl) rfl hr (hc hfin) hn

/-- `suspend()` is quiet. -/
theorem SrpInv.quiet_suspend (h : k.SrpInv) (ha : k.CanAct (.suspend t u))
    (hc : k.Admits (.suspend t u)) : Quiet k (k.suspend t u) := by
  obtain ⟨⟨hr, -⟩, hidle, hu⟩ := ha
  rcases hu with rfl | hu
  · refine ⟨(frame_leave k u .suspended).undisturbed, fun n hn => ?_⟩
    rw [h.oneCore.core u] at hr
    exact h.open_leave rfl rfl hr (hc rfl) hn
  · refine ⟨(frame_suspend k t u).undisturbed, fun n hn => h.open_running n ?_⟩
    have hut : (k.sched (k.core u)).chosen ≠ some u := fun hch => by
      rw [(h.wellFormed.state_of_running hch).1] at hu
      cases hu
    -- the running thread is not the one that is taken out
    rw [← hn]
    show _ = (((k.setState u .suspended).remove u).dispatch (k.core t) t).running 0
    rw [running, running, dispatch_sched, remove_sched]
    show (k.sched 0).chosen =
      (if 0 = k.core u then (k.sched (k.core u)).remove u else k.sched 0).chosen
    rw [h.oneCore.core u] at hut ⊢
    rw [if_pos rfl, SchedulingList.remove_listed hut]

/-- `resume()` is quiet. -/
theorem SrpInv.quiet_resume (h : k.SrpInv) (hlt : 0 < k.cores)
    (hc : k.Admits (.resume 0 u)) : Quiet k (k.resume 0 u) := by
  obtain ⟨r, hr⟩ := Option.isSome_iff_exists.mp (h.wellFormed.isSome 0 hlt)
  unfold Kernel.resume
  split
  · rename_i hst
    refine ⟨(frame_enter _ _ _).undisturbed, fun n hn => ?_⟩
    exact h.open_enter rfl rfl rfl hr (h.open_running r hr) (hc hst r hr) hn
  · exact h.quiet_same (.refl k) rfl

/-- `reschedule()` is quiet. -/
theorem SrpInv.quiet_reschedule (h : k.SrpInv) (hlt : 0 < k.cores)
    (hc : k.Admits (.reschedule 0)) : Quiet k (k.reschedule 0) := by
  obtain ⟨r, hr⟩ := Option.isSome_iff_exists.mp (h.wellFormed.isSome 0 hlt)
  refine ⟨(frame_reschedule k 0).undisturbed, fun n hn => ?_⟩
  exact h.open_reschedule rfl rfl rfl hr (h.open_running r hr) (hc r hr) hn

/-- `exit()` takes the head of the list and asks the elector about the next one. -/
theorem SrpInv.quiet_exit (h : k.SrpInv) (ha : k.CanAct (.exit t)) (hc : k.Admits (.exit t)) :
    Quiet k (k.exit t) := by
  have hr : k.running 0 = some t := by rw [← h.oneCore.core t]; exact ha.1.1
  have hcoret : k.core t = 0 := h.oneCore.core t
  -- `k₁` is the kernel before the last `choose()`
  obtain ⟨k₁, hk₁⟩ : ∃ k₁, ((k.setState t .finishing).remove t).resumeJoiner t = k₁ := ⟨_, rfl⟩
  have hexit : k.exit t = (k₁.setSched 0 fun l =>
      l.choose k₁.priority (k₁.eligible 0)).dispatch 0 t := by
    rw [← hk₁, ← hcoret]
    rfl
  have hsame : k₁.toSync = k.toSync ∧ k₁.toSystem = k.toSystem ∧ k₁.srpCeiling = k.srpCeiling ∧
      k₁.inside = k.inside ∧ k₁.call = k.call := by
    rw [← hk₁]
    unfold resumeJoiner
    split <;> exact ⟨rfl, rfl, rfl, rfl, rfl⟩
  obtain ⟨hsync, hsys, hceil, hins, hcall⟩ := hsame
  have hrem : ((k.setState t .finishing).remove t).sched 0 =
      { chosen := (k.sched 0).list.head?, list := (k.sched 0).list.tail } := by
    rw [remove_sched, show (k.setState t .finishing).core t = 0 from hcoret, if_pos rfl]
    exact SchedulingList.remove_chosen hr
  obtain ⟨x, hx⟩ : ∃ x, (k.sched 0).list.head? = some x := by
    have hsw := h.wellFormed.remove_running ha.1.1 ha.2
      (show State.finishing ≠ .running ∧ State.finishing ≠ .ready by simp)
    have hsome := hsw.isSome 0 (by
      show 0 < k.cores
      rw [h.oneCore.cores]
      exact Nat.one_pos)
    rw [running, hrem] at hsome
    exact Option.isSome_iff_exists.mp hsome
  have hlist : k₁.running 0 = some x ∧ (k₁.sched 0).list = k.readyAfter t := by
    rw [← hk₁]
    unfold resumeJoiner readyAfter
    split
    · rename_i hj
      rw [show k.joining t = none from hj, running, hrem]
      exact ⟨hx, rfl⟩
    · rename_i j hj
      rw [show k.joining t = some j from hj]
      have hin : ((((k.setState t .finishing).remove t).setState j .ready).insert j).sched 0 =
          { chosen := some x
            list := (k.sched 0).list.tail.insertRank k.priority j } := by
        rw [insert_sched]
        show (if 0 = k.core j then
          (((k.setState t .finishing).remove t).sched (k.core j)).insert k.priority j
          else ((k.setState t .finishing).remove t).sched 0) = _
        rw [h.oneCore.core j, if_pos rfl, hrem, hx, SchedulingList.insert_chosen rfl]
      exact ⟨congrArg SchedulingList.chosen hin, congrArg SchedulingList.list hin⟩
  constructor
  · have hu : Undisturbed k k₁ := by
      refine ⟨fun s _ => by rw [hsync], by rw [hsync], hceil, hins, fun y s _ hy => ?_⟩
      rwa [hcall] at hy
    rw [hexit]
    exact hu.trans ((frame_setSched k₁ 0 _).trans (frame_dispatch _ _ _)).undisturbed
  · intro n hn
    rw [hexit, running, dispatch_sched, setSched_sched, if_pos rfl] at hn
    rcases SchedulingList.choose_cases hlist.1 hn with rfl | ⟨hhead, hel⟩
    · exact hc.1 n hx
    · refine h.open_choose hsys (by rw [hsync]) hceil hlist.1 ?_ hhead hel
      rw [hlist.2]
      exact hc.2 x hx

/-- `priority()` is quiet. -/
theorem SrpInv.quiet_rank (h : k.SrpInv) {p : Int} (hu : k.Schedulable u) :
    Quiet k (k.setCriterion c u p) := by
  have hre : Undisturbed k (k.reorder u p) := by
    unfold Kernel.reorder
    split <;> exact ⟨fun _ _ => rfl, rfl, rfl, rfl, fun _ _ _ hc => hc⟩
  have hstate : (k.reorder u p).state = k.state := by
    unfold Kernel.reorder
    split <;> rfl
  have hsys : (k.reorder u p).toSystem = k.toSystem := by
    unfold Kernel.reorder
    split <;> rfl
  unfold Kernel.setCriterion
  dsimp only
  rw [if_neg (by rw [hsys]; exact h.oneCore.smp)]
  refine ⟨hre, fun n hn => h.open_running n ?_⟩
  exact (h.wellFormed.running_congr (h.wellFormed.reorder hu).toPlaced hstate (by rw [hsys])).mp hn

/-- `update()` is quiet. -/
theorem SrpInv.quiet_update (h : k.SrpInv) {elapsed : Int} : Quiet k (k.update u elapsed) := by
  unfold Kernel.update
  split
  · exact h.quiet_same ⟨fun _ _ => rfl, rfl, rfl, rfl, fun _ _ _ hc => hc⟩ rfl
  · exact h.quiet_same (.refl k) rfl

/-- A step that is no `p()` or `v()` on a resource is quiet. -/
theorem SrpInv.quiet_step (h : k.SrpInv) {a : Action} (ha : k.CanAct a) (hc : k.Admits a)
    (hplain : ∀ t s, a = .p t s ∨ a = .v t s → (k.sem s).protocol ≠ .srp) :
    Quiet k (k.step a) := by
  have hrun {t : Tid} (hr : k.running (k.core t) = some t) : k.running 0 = some t := by
    rwa [h.oneCore.core] at hr
  have hcore {c : Nat} (hlt : c < k.cores) : c = 0 := by
    have := h.oneCore.cores
    omega
  cases a with
  -- p() and v() of another protocol leave the ceilings of SRP alone
  | p t s => exact h.quiet_p (hrun ha.1.1) (hplain t s (.inl rfl)) hc
  | v t s => exact h.quiet_v (hrun ha.1) (hplain t s (.inr rfl)) hc
  | ret t => exact h.quiet_complete (h.quiet_same (.refl k) rfl) fun _ => rfl
  | create c t st =>
    obtain rfl := hcore ha.1
    exact h.quiet_create ha hc
  | yield t => exact h.quiet_yield (hrun ha.1) hc
  | exit t => exact h.quiet_exit ha hc
  | join t u => exact h.quiet_join (hrun ha.1.1) hc
  | suspend t u => exact h.quiet_suspend ha hc
  | resume c u =>
    obtain rfl := hcore ha.1
    exact h.quiet_resume ha.1 hc
  | reschedule c =>
    obtain rfl := hcore ha
    exact h.quiet_reschedule ha hc
  | handler c s =>
    obtain rfl := hcore ha.1
    refine h.quiet_handler (fun hs => ha.2 ?_) hc
    rw [hs]
    rfl
  | priority c u p => exact h.quiet_rank ha.2
  | update u elapsed => exact h.quiet_update

/-! ## `p()` and `v()` on a resource -/

/-- The running thread acquires or releases `s`, which becomes `m`; `l` is what it holds
    then. The ceilings are updated in the kernel `k₁` after that. -/
theorem SrpInv.change (h : k.SrpInv) (hr : k.running 0 = some t) {m : Semaphore} {l : List Sid}
    (hturn : Turn k k₁ t s m l) (hs : (k.sem s).protocol = .srp)
    (htasks : m.tasks = (k.sem s).tasks) (hval : m.value = if s ∈ l then 0 else 1)
    (hstore : k₁.store = k.store) (hsys₁ : k₁.toSystem = k.toSystem)
    (hwf : (k₁.updateSrpCeiling s).WellFormed)
    (hcount : (k₁.updateSrpCeiling s).toSync.Counted) : (k₁.updateSrpCeiling s).SrpInv := by
  obtain ⟨store, heq, hown, hkeep, hsystem⟩ := updateSrpCeiling_spec k₁ s
  generalize hk' : k₁.updateSrpCeiling s = k' at *
  have hsem : k'.sem = k₁.sem := by rw [heq]
  have hins : k'.inside = k₁.inside := by rw [heq]
  have hsys : k'.toSystem = k.toSystem := by rw [heq]; exact hsys₁
  have hprot (x : Sid) : (k'.sem x).protocol = (k.sem x).protocol := by
    rw [hsem, hturn.protocol_eq]
  have hptr (x : Sid) : (k'.sem x).ceilings = (k.sem x).ceilings := by
    rw [hsem, hturn.ceilings_eq]
  have hself : k'.sem s = m := by rw [hsem, hturn.sem_self]
  have hother {x : Sid} (hx : x ≠ s) : k'.sem x = k.sem x := by rw [hsem, hturn.sem_of_ne hx]
  have hheld {x : Sid} {u : Tid} (hx : x ∈ k'.inside u) : (u = t ∧ x = s ∧ s ∈ l) ∨
      (x ≠ s ∧ x ∈ k.inside u) := by
    rw [hins] at hx
    exact hturn.mem_inside hx
  -- the ceilings of the other resources are kept
  have hceil {x : Sid} (hx : x ≠ s) (hsrp : (k.sem x).protocol = .srp) :
      k'.ceiling x = k.ceiling x := by
    have hne : (k₁.sem x).ceilings ≠ (k₁.sem s).ceilings := by
      rw [hturn.ceilings_eq, hturn.ceilings_eq]
      exact fun hc => hx (h.cells x ((h.live x).mp hsrp) s ((h.live s).mp hs) hc)
    rw [hkeep x hne]
    simp only [Sync.ceiling, hturn.ceilings_eq, hstore]
  have hlive (x : Sid) : (k'.sem x).protocol = .srp ↔ x ∈ k'.srpResources := by
    rw [hprot, hsys]
    exact h.live x
  constructor
  case wellFormed => exact hwf
  case counted => exact hcount
  case oneCore => exact h.oneCore.congr hsys
  case elector => rw [hsys]; exact h.elector
  case live => exact hlive
  case kind => exact fun x => by rw [hprot]; exact h.kind x
  case cells =>
    intro x hx y hy hxy
    rw [hsys] at hx hy
    rw [hptr, hptr] at hxy
    exact h.cells x hx y hy hxy
  case free =>
    intro x hx hnone
    rw [hprot] at hx
    rw [hins] at hnone
    by_cases hxs : x = s
    · subst hxs
      have hnot : x ∉ l := fun hin => hnone t ((hturn.mem_inside_self t).mpr ⟨rfl, hin⟩)
      rw [hself, hval, if_neg hnot]
    · rw [hother hxs]
      exact h.free x hx fun u hu => hnone u ((hturn.mem_inside_of_ne hxs u).mpr hu)
  case taken =>
    intro x u hx
    rw [hprot]
    rcases hheld hx with ⟨-, rfl, hin⟩ | ⟨hxs, hx⟩
    · rw [hself, hval, if_pos hin]
      exact ⟨hs, rfl⟩
    · rw [hother hxs]
      exact h.taken x u hx
  case alone =>
    intro x u w hu hw
    rcases hheld hu with ⟨hut, hxs, -⟩ | ⟨hxs, hu⟩
    · rcases hheld hw with ⟨hwt, -, -⟩ | ⟨hne, -⟩
      · rw [hut, hwt]
      · exact absurd hxs hne
    · rcases hheld hw with ⟨-, heq', -⟩ | ⟨-, hw⟩
      · exact absurd heq' hxs
      · exact h.alone x u w hu hw
  case inside_nodup =>
    rw [hins]
    exact hturn.inside_nodup h.inside_nodup
  case holder =>
    intro u hu
    rw [hins] at hu
    have hsched := hturn.holder (.inl (h.wellFormed.state_of_running hr).1) h.holder hu
    rw [heq]
    exact hsched
  case ceiling_le =>
    intro x u hx w htask hne
    rw [hsys]
    rcases hheld hx with ⟨rfl, rfl, hin⟩ | ⟨hxs, hx⟩
    · -- only the new holder is running
      rw [hown]
      have hw : k₁.state w ≠ some .running := by
        intro hst
        rw [hturn.state] at hst
        have hrw := (h.wellFormed.running_iff 0 w).mpr ⟨hst, h.oneCore.core w⟩
        rw [hr] at hrw
        exact hne (Option.some.inj hrw).symm
      have hlev : k₁.level w = k.level w := by rw [hsys₁]
      rw [hself] at htask
      rw [← hlev]
      refine level_le_maxCeil (by rwa [hturn.sem_self]) rfl ?_ hw
      rw [hturn.sem_self, hval, if_pos hin]
      exact Int.zero_lt_one
    · rw [hother hxs] at htask
      rw [hceil hxs (h.taken x u hx).1]
      exact h.ceiling_le x u hx w htask hne
  case system_le =>
    intro x u hx
    rw [hsystem]
    apply ceiling_le_maxResource
    have hsrp : (k'.sem x).protocol = .srp := by
      rw [hprot]
      rcases hheld hx with ⟨-, rfl, -⟩ | ⟨-, hx⟩
      · exact hs
      · exact (h.taken x u hx).1
    have hmem := (hlive x).mp hsrp
    rwa [heq] at hmem
  case calls =>
    intro u x hc
    rw [hprot]
    rw [heq] at hc
    exact h.calls u x (hc.imp hturn.call_of_some hturn.call_of_some)
  case open_running =>
    rintro n hn ⟨x, hx, htask, hv, hnot⟩
    have hn' : k₁.running 0 = some n := by rwa [heq] at hn
    rw [hturn.running, hr] at hn'
    obtain rfl := Option.some.inj hn'
    rw [hins] at hnot
    by_cases hxs : x = s
    · subst hxs
      rw [hturn.inside_self] at hnot
      rw [hself, hval, if_neg hnot] at hv
      exact absurd hv (by decide)
    · rw [hother hxs] at htask hv
      rw [hsys] at hx
      rw [hturn.mem_inside_of_ne hxs] at hnot
      exact h.open_running t hr ⟨x, hx, htask, hv, hnot⟩

/-- A `p()` on a resource finds it free. -/
theorem SrpInv.findsFree (h : k.SrpInv) {a : Action} (ha : k.CanAct a) (hd : k.Declared a)
    (hc : k.Admits a) : k.FindsFree a := by
  rintro t s rfl hs
  simp only [Declared, Admits, hs, if_true] at hd hc
  have hr : k.running 0 = some t := by rw [← h.oneCore.core t]; exact ha.1.1
  have hv := (h.value_eq hs (h.open_running t hr) hd.1 hc).1
  refine ⟨by omega, ?_⟩
  rw [Sync.p, hs]
  dsimp only
  rw [Sync.template_p_eq]
  simp [hv]

/-- `p()` on a resource keeps the invariant. -/
theorem SrpInv.p_srp (h : k.SrpInv) (ha : k.CanAct (.p t s)) (hs : (k.sem s).protocol = .srp)
    (hd : k.Declared (.p t s)) (hc : k.Admits (.p t s)) : (k.p t s).SrpInv := by
  have hsleeps : (k.toSync.p s t).2 = false := (h.findsFree ha hd hc t s rfl hs).2
  have hwf := h.wellFormed.p ha.1.1 ha.2 (s := s)
  have hcount : (k.p t s).toSync.Counted := h.counted.step (a := .p t s)
  simp only [Declared, Admits, hs, if_true] at hd hc
  have hr : k.running 0 = some t := by rw [← h.oneCore.core t]; exact ha.1.1
  obtain ⟨hv, hnone⟩ := h.value_eq hs (h.open_running t hr) hd.1 hc
  have hp : (k.toSync.p s t).1 = k.toSync.modify s fun m => { m with value := 0 } := by
    rw [Sync.p, hs]
    dsimp only
    rw [Sync.template_p_eq]
    simp [Sync.modify, hv]
  -- the kernel before the ceilings are updated
  obtain ⟨k₁, hk₁⟩ : ∃ k₁, ((k.callP t s).endCall t).hold t s = k₁ := ⟨_, rfl⟩
  have heq : k.p t s = k₁.updateSrpCeiling s := by
    have hprot : (((k.callP t s).endCall t).sem s).protocol = .srp := by
      show ((k.toSync.p s t).1.sem s).protocol = _
      rw [Sync.p_protocol, hs]
    unfold Kernel.p
    rw [hsleeps, if_neg (by simp)]
    unfold Kernel.complete
    rw [show (k.callP t s).call t = some (.p s) from Function.update_self _ _ _]
    dsimp only
    unfold updateCeiling
    rw [hprot]
    dsimp only
    rw [if_pos (by
      show (((k.callP t s).endCall t).sem s).protocol.resource
      rw [hprot]
      rfl), ← hk₁]
    rfl
  rw [heq] at hwf hcount ⊢
  have hk₁' : k₁ = { k with
      sem := Function.update k.sem s { k.sem s with value := 0 }
      call := Function.update k.call t none
      inside := Function.update k.inside t (s :: k.inside t) } := by
    rw [← hk₁]
    unfold hold endCall callP
    rw [hp]
    simp [Sync.modify]
  have hturn : Turn k k₁ t s { k.sem s with value := 0 } (s :: k.inside t) :=
    { sem := by rw [hk₁']
      call := by rw [hk₁']
      inside := by rw [hk₁']
      state := by rw [hk₁']
      running := by rw [hk₁']; rfl
      protocol := rfl
      ceilings := rfl
      others := fun x _ => hnone x
      held := fun x hx => by simp [hx]
      nodup := List.nodup_cons.mpr ⟨hc, h.inside_nodup t⟩ }
  exact h.change hr hturn hs rfl (by simp) (by rw [hk₁']) (by rw [hk₁']) hwf hcount

/-- `v()` on a resource keeps the invariant. -/
theorem SrpInv.v_srp (h : k.SrpInv) (ha : k.CanAct (.v t s)) (hs : (k.sem s).protocol = .srp)
    (hd : k.Declared (.v t s)) : (k.v t s).SrpInv := by
  obtain ⟨rest, hrest⟩ := List.head?_eq_some_iff.mp (hd hs)
  have hmem : s ∈ k.inside t := by rw [hrest]; exact List.mem_cons_self
  have hwf := h.wellFormed.v ha.1 (s := s)
  have hcount : (k.v t s).toSync.Counted := h.counted.step (a := .v t s)
  have hr : k.running 0 = some t := by rw [← h.oneCore.core t]; exact ha.1
  have hv := (h.taken s t hmem).2
  have hnd := h.inside_nodup t
  rw [hrest, List.nodup_cons] at hnd
  have hveq : k.toSync.v s t = (k.toSync.modify s fun m => { m with value := 1 }, none) := by
    rw [Sync.v, hs]
    dsimp only
    rw [Sync.template_v_eq]
    simp [Sync.modify, hv]
  -- Nobody is queued, so that `v()` returns at once and updates the ceilings.
  obtain ⟨k₁, hk₁⟩ : ∃ k₁, (k.callV t s).endCall t = k₁ := ⟨_, rfl⟩
  have heq : k.v t s = k₁.updateSrpCeiling s := by
    have hprot : (((k.callV t s).endCall t).sem s).protocol = .srp := by
      show ((k.toSync.v s t).1.sem s).protocol = _
      rw [Sync.v_protocol, hs]
    unfold Kernel.v
    rw [hveq]
    dsimp only
    unfold Kernel.complete
    rw [show (k.callV t s).call t = some (.v s) from Function.update_self _ _ _]
    dsimp only
    unfold updateCeiling
    rw [hprot, ← hk₁]
  rw [heq] at hwf hcount ⊢
  have hk₁' : k₁ = { k with
      sem := Function.update k.sem s { k.sem s with value := 1 }
      call := Function.update k.call t none
      inside := Function.update k.inside t rest } := by
    rw [← hk₁]
    unfold endCall callV
    rw [hveq, hrest, List.erase_cons_head]
    simp [Sync.modify]
  have hturn : Turn k k₁ t s { k.sem s with value := 1 } rest :=
    { sem := by rw [hk₁']
      call := by rw [hk₁']
      inside := by rw [hk₁']
      state := by rw [hk₁']
      running := by rw [hk₁']; rfl
      protocol := rfl
      ceilings := rfl
      others := fun x hx hin => hx (h.alone s x t hin hmem)
      held := fun x hx => by
        rw [hrest, List.mem_cons]
        exact (or_iff_right hx).symm
      nodup := hnd.2 }
  exact h.change hr hturn hs rfl (by simp [hnd.1]) (by rw [hk₁']) (by rw [hk₁']) hwf hcount

/-- Nobody leaves the core inside a critical section. -/
theorem not_leaves {a : Action} (hd : k.Declared a) (hfind : k.FindsFree a)
    (hx : k.inside x ≠ []) : ¬k.Leaves a x := by
  cases a with
  | p t s =>
    rintro ⟨rfl, hsleeps⟩
    by_cases hs : (k.sem s).protocol = .srp
    · rw [(hfind x s rfl hs).2] at hsleeps
      cases hsleeps
    · simp only [Declared, hs, if_false] at hd
      exact hx (hd hsleeps)
  | exit t =>
    rintro rfl
    exact hx hd
  | join t u =>
    rintro ⟨rfl, hfin⟩
    exact hx (hd hfin)
  | suspend t u =>
    rintro rfl
    exact hx hd
  | v _ _ | ret _ | create _ _ _ | yield _ | resume _ _ | reschedule _ | handler _ _
  | priority _ _ _ | update _ _ => exact id

/-- Every step keeps the invariant. -/
theorem SrpInv.step (h : k.SrpInv) {a : Action} (ha : k.CanAct a) (hd : k.Declared a)
    (hc : k.Admits a) : (k.step a).SrpInv := by
  by_cases hsrp : ∃ t s, (a = .p t s ∨ a = .v t s) ∧ (k.sem s).protocol = .srp
  · obtain ⟨t, s, rfl | rfl, hs⟩ := hsrp
    · exact h.p_srp ha hs hd hc
    · exact h.v_srp ha hs hd
  · obtain ⟨hu, hopen⟩ := h.quiet_step ha hc fun t s hts hs => hsrp ⟨t, s, hts, hs⟩
    have hfind := h.findsFree ha hd hc
    exact h.of_undisturbed hu (h.wellFormed.step ha) h.counted.step (k.step_toSystem a)
      (k.step_protocol a)
      (fun x hx => h.wellFormed.schedulable_step ha (h.holder x hx) (not_leaves hd hfind hx))
      hopen

/-- The invariant holds at boot. -/
theorem Boot.srpInv (h : k.Boot) (h₁ : k.OneCore) (hel : k.elector = .srp)
    (hlive : ∀ s, (k.sem s).protocol = .srp ↔ s ∈ k.srpResources)
    (hkind : ∀ s, (k.sem s).protocol = .srp ∧ (k.sem s).value = 1 ∨ ¬(k.sem s).protocol.resource)
    (hcells : k.OwnCells) : k.SrpInv := by
  -- a resource starts free
  have hvalue (s : Sid) (hs : (k.sem s).protocol = .srp) : (k.sem s).value = 1 := by
    rcases hkind s with hk | hk
    · exact hk.2
    · rw [hs] at hk
      exact absurd rfl hk
  constructor
  case wellFormed => exact h.toWellFormed
  case counted => exact h.counted
  case oneCore => exact h₁
  case elector => exact hel
  case live => exact hlive
  case kind => exact fun s => (hkind s).imp_left And.left
  case cells => exact hcells
  case free => exact fun s hs _ => hvalue s hs
  case taken => exact fun s t hs => by simp [h.inside_nil] at hs
  case alone => exact fun s t u hs => by simp [h.inside_nil] at hs
  case inside_nodup => exact fun t => by simp [h.inside_nil]
  case holder => exact fun t ht => absurd (h.inside_nil t) ht
  case ceiling_le => exact fun s t hs => by simp [h.inside_nil] at hs
  case system_le => exact fun s t hs => by simp [h.inside_nil] at hs
  case calls => exact fun t s hc => by simp [h.call_none] at hc
  case open_running =>
    rintro r - ⟨s, hs, -, hv, -⟩
    have := hvalue s ((hlive s).mpr hs)
    omega

end Kernel

/-- One core with `Elector_SRP` and resources of value 1, used as they are meant to be,
    next to plain semaphores and conditions. -/
def srpKernel : TransitionSystem Kernel Action where
  Init k := k.Boot ∧ k.OneCore ∧ k.elector = .srp ∧
    (∀ s, (k.sem s).protocol = .srp ↔ s ∈ k.srpResources) ∧
    (∀ s, (k.sem s).protocol = .srp ∧ (k.sem s).value = 1 ∨ ¬(k.sem s).protocol.resource) ∧
    k.LevelsByUrgency
  Enabled k a := k.CanAct a ∧ k.Declared a
  next := Kernel.step

instance (k : Kernel) (a : Action) : Decidable (srpKernel.Enabled k a) :=
  inferInstanceAs (Decidable (k.CanAct a ∧ k.Declared a))

/-- Where the resources have ceilings of their own, every `p()` of a run that meets
    `Admits` finds its resource free. -/
theorem findsFree_of_admits (k : Kernel) (as : List Action) (hk : srpKernel.Init k)
    (hcells : k.OwnCells) (hv : srpKernel.Valid k as) (hm : srpKernel.Meets Kernel.Admits k as) :
    srpKernel.Meets Kernel.FindsFree k as := by
  obtain ⟨hboot, h₁, hel, hlive, hkind, -⟩ := hk
  refine hm.meets (I := Kernel.SrpInv) ?_ ?_ (hboot.srpInv h₁ hel hlive hkind hcells) hv
  · exact fun k a h ha hc => h.step ha.1 ha.2 hc
  · exact fun k a h ha hc => h.findsFree ha.1 ha.2 hc

namespace Kernel

/-- The levels rise with the urgency; the threads 9 and 5 are declared for resource 0. Thread 5
    has been created suspended, in front of it. -/
def srpExample : Kernel :=
  (single
    { priority := fun t => if t = 8 then Priority.idle else t
      sem := fun s =>
        if s = 0 then { protocol := .srp, tasks := [9, 5] } else { protocol := .plain }
      store := fun _ _ => 0 }
    9 8 .srp (fun t => Priority.idle - if t = 8 then Priority.idle else t) [0]).withSuspended [5]

/-- The kernel has booted, and the levels are as they are to be. -/
theorem srpExample_init : srpKernel.Init srpExample := by
  refine ⟨(single_boot (by decide) (fun s => ?_) (fun s => ?_) fun s => ?_).withSuspended
    (by decide), ⟨rfl, by decide, rfl, fun _ => rfl⟩, rfl, fun s => ?_, fun s => ?_,
    fun t u htu => ?_⟩
  · by_cases hs : s = 0 <;> simp [hs]
  · by_cases hs : s = 0 <;> simp [hs]
  · by_cases hs : s = 0 <;> simp [hs]
  · by_cases hs : s = 0 <;> simp [srpExample, withSuspended, single, hs]
  · by_cases hs : s = 0 <;> simp [srpExample, withSuspended, single, hs, Protocol.resource]
  · simp only [srpExample, withSuspended, single] at htu ⊢
    omega

/-- The only resource has a cell of its own. -/
theorem srpExample_ownCells : srpExample.OwnCells := by
  intro s hs s' hs' _
  simp only [srpExample, withSuspended, single, List.mem_singleton] at hs hs'
  rw [hs, hs']

end Kernel

/-- Thread 3 preempts the holder 9 and exits; thread 5 is resumed after that and gets the resource
    behind the `v()`. -/
theorem findsFree_of_admits_preempted :
    srpKernel.Meets Kernel.FindsFree Kernel.srpExample
      [.p 9 0, .create 0 3 .ready, .exit 3, .resume 0 5, .v 9 0, .reschedule 0,
        .p 5 0, .v 5 0] :=
  findsFree_of_admits _ _ Kernel.srpExample_init Kernel.srpExample_ownCells (by decide) (by decide)

/-- Thread 3 preempts the holder 9. Thread 5, resumed then, is not eligible, but
    `remove()` takes it when thread 3 exits, and its `p()` finds the resource taken. -/
theorem not_findsFree_of_valid : ¬∀ k as, srpKernel.Init k → k.OwnCells →
    srpKernel.Valid k as → srpKernel.Meets Kernel.FindsFree k as := by
  intro h
  have hm := h Kernel.srpExample
    [.p 9 0, .create 0 3 .ready, .resume 0 5, .exit 3, .p 5 0]
    Kernel.srpExample_init Kernel.srpExample_ownCells (by decide)
  have hv := (hm.2.2.2.2.1 5 0 rfl (by decide)).1
  revert hv
  decide

end Epos
