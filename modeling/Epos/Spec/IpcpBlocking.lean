import Epos.Spec.HeldResources
import Epos.Spec.SortedQueues

/-!
# IPCP never blocks on one core

On one core a thread that holds an IPCP semaphore runs at its ceiling, so that no
thread that may use the semaphore is chosen before the holder has released it. What
carries this over a run is a law on base priorities, the ones that threads have
outside their critical sections: a holder that was preempted is at least as urgent
as the base priority of the thread that runs (`IpcpInv.ahead`), and of two
preempted holders one is at least as urgent as the base of the other (`apart`).

`Thread::priority` on the running thread does not reschedule on one core, so it can
leave a thread running that is less urgent than a ready holder. The law holds in
the runs in which it does not, and in which the in-place `update()` of a criterion
fits.
-/

namespace Epos

namespace Sync

variable {σ σ' : Sync} {s : Sid} {p : Int} {l : List Sid}

/-- The priority left when the semaphores `l`, the latest first, are released. -/
def baseOf (σ : Sync) : Int → List Sid → Int
  | p, [] => p
  | _, s :: rest => σ.baseOf (σ.sem s).priority rest

/-- `p` is the priority of a thread inside the IPCP semaphores `l`: the ceiling of
    the latest, with each saved priority at or above the ceiling it replaced, and
    the outermost strictly above. -/
def Stacked (σ : Sync) : Int → List Sid → Prop
  | _, [] => True
  | p, s :: rest =>
    p = σ.ceiling s ∧ (rest = [] → p < (σ.sem s).priority) ∧
      (rest ≠ [] → p ≤ (σ.sem s).priority) ∧ σ.Stacked (σ.sem s).priority rest

/-- The base priority only depends on the priorities that were saved. -/
theorem baseOf_congr (h : ∀ s ∈ l, (σ'.sem s).priority = (σ.sem s).priority) :
    σ'.baseOf p l = σ.baseOf p l := by
  induction l generalizing p with
  | nil => rfl
  | cons s rest ih =>
    simp only [baseOf]
    rw [h s List.mem_cons_self]
    exact ih fun x hx => h x (List.mem_cons_of_mem _ hx)

/-- The stack only depends on these and on the ceilings. -/
theorem Stacked.congr (hp : σ.Stacked p l)
    (h : ∀ s ∈ l, (σ'.sem s).priority = (σ.sem s).priority ∧ σ'.ceiling s = σ.ceiling s) :
    σ'.Stacked p l := by
  induction l generalizing p with
  | nil => trivial
  | cons s rest ih =>
    obtain ⟨h₁, h₂, h₃, h₄⟩ := hp
    obtain ⟨hsaved, hceil⟩ := h s List.mem_cons_self
    simp only [Stacked, hsaved, hceil]
    exact ⟨h₁, h₂, h₃, ih h₄ fun x hx => h x (List.mem_cons_of_mem _ hx)⟩

/-- A holder is strictly more urgent than its base priority. -/
theorem Stacked.lt_base (hp : σ.Stacked p l) (hl : l ≠ []) : p < σ.baseOf p l := by
  induction l generalizing p with
  | nil => exact absurd rfl hl
  | cons s rest ih =>
    obtain ⟨-, hlast, hmid, hrest⟩ := hp
    simp only [baseOf]
    by_cases hr : rest = []
    · subst hr
      exact hlast rfl
    · have h₁ := hmid hr
      have h₂ := ih hrest hr
      omega

/-- A holder is at least as urgent as the ceiling of every semaphore it holds. -/
theorem Stacked.le_ceiling (hp : σ.Stacked p l) (hs : s ∈ l) : p ≤ σ.ceiling s := by
  induction l generalizing p with
  | nil => cases hs
  | cons x rest ih =>
    obtain ⟨hx, -, hmid, hrest⟩ := hp
    rcases List.mem_cons.mp hs with rfl | hs
    · omega
    · have h₁ := hmid (List.ne_nil_of_mem hs)
      have h₂ := ih hrest hs
      omega

end Sync

namespace Kernel

variable {k k' : Kernel} {c : Nat} {s : Sid} {t u r n : Tid} {st : State}

/-- The priority that `t` has outside its critical sections. -/
def basePriority (k : Kernel) (t : Tid) : Int :=
  k.toSync.baseOf (k.priority t) (k.inside t)

/-- A thread that holds nothing has its base priority. -/
theorem basePriority_of_nil (h : k.inside t = []) : k.basePriority t = k.priority t := by
  simp [basePriority, h, Sync.baseOf]

/-- How threads use IPCP semaphores: each has a base priority strictly less urgent
    than the ceilings of the semaphores that it uses, nests by ascending urgency of
    the ceilings, releases the latest first, and neither sleeps, yields, exits, is
    suspended nor has its priority changed inside. -/
def Disciplined (k : Kernel) : Action → Prop
  | .p t s =>
    if (k.sem s).protocol = .ipcp then
      k.ceiling s < k.basePriority t ∧ (k.inside t ≠ [] → k.ceiling s ≤ k.priority t)
    else (k.toSync.p s t).2 = true → k.inside t = []
  | .v t s => (k.sem s).protocol = .ipcp → (k.inside t).head? = some s
  | .join t u => k.state u ≠ some .finishing → k.inside t = []
  | .yield t | .exit t => k.inside t = []
  | .suspend _ u | .priority _ u _ | .update u _ => k.inside u = []
  | .ret _ | .create _ _ _ | .resume _ _ | .reschedule _ | .handler _ _ => True

/-- No `p()` on a semaphore that the caller holds; the priority of the running thread
    is not set behind that of a holder, all of which are ready then; an in-place
    update fits. -/
def StaysAhead (k : Kernel) : Action → Prop
  | .p t s => (k.sem s).protocol = .ipcp → s ∉ k.inside t
  | .priority _ u prio => k.running 0 = some u →
      ∀ h ∈ (k.sched 0).list, k.inside h ≠ [] → prio ≤ k.priority h
  | .update u elapsed =>
      Priority.high < k.priority u ∧ k.priority u < Priority.normal →
        k.Fits u (toInt (elapsed + k.deadline u)) ∧
          (k.running 0 = some u → ∀ h ∈ (k.sched 0).list, k.inside h ≠ [] →
            toInt (elapsed + k.deadline u) ≤ k.priority h)
  | _ => True

instance (k : Kernel) (a : Action) : Decidable (k.Disciplined a) :=
  match a with
  | .p t s =>
    inferInstanceAs (Decidable (if (k.sem s).protocol = .ipcp then
      k.ceiling s < k.basePriority t ∧ (k.inside t ≠ [] → k.ceiling s ≤ k.priority t)
      else (k.toSync.p s t).2 = true → k.inside t = []))
  | .v t s =>
    inferInstanceAs (Decidable ((k.sem s).protocol = .ipcp → (k.inside t).head? = some s))
  | .join t u =>
    inferInstanceAs (Decidable (k.state u ≠ some .finishing → k.inside t = []))
  | .yield t | .exit t => inferInstanceAs (Decidable (k.inside t = []))
  | .suspend _ u | .priority _ u _ | .update u _ =>
    inferInstanceAs (Decidable (k.inside u = []))
  | .ret _ | .create _ _ _ | .resume _ _ | .reschedule _ | .handler _ _ => isTrue trivial

instance (k : Kernel) (a : Action) : Decidable (k.StaysAhead a) :=
  match a with
  | .p t s => inferInstanceAs (Decidable ((k.sem s).protocol = .ipcp → s ∉ k.inside t))
  | .priority _ u prio =>
    inferInstanceAs (Decidable (k.running 0 = some u →
      ∀ h ∈ (k.sched 0).list, k.inside h ≠ [] → prio ≤ k.priority h))
  | .update u elapsed =>
    inferInstanceAs (Decidable (Priority.high < k.priority u ∧ k.priority u < Priority.normal →
      k.Fits u (toInt (elapsed + k.deadline u)) ∧
        (k.running 0 = some u → ∀ h ∈ (k.sched 0).list, k.inside h ≠ [] →
          toInt (elapsed + k.deadline u) ≤ k.priority h)))
  | .v _ _ | .ret _ | .create _ _ _ | .yield _ | .exit _ | .join _ _ | .suspend _ _
  | .resume _ _ | .reschedule _ | .handler _ _ => isTrue trivial

/-! ## The invariant -/

structure IpcpInv (k : Kernel) : Prop where
  wellFormed : k.WellFormed
  counted : k.toSync.Counted
  sorted : k.Sorted
  kind : ∀ s, (k.sem s).protocol = .ipcp ∨ ¬(k.sem s).protocol.resource
  owner_iff : ∀ s t, (k.sem s).protocol = .ipcp → ((k.sem s).owner = some t ↔ s ∈ k.inside t)
  free : ∀ s, (k.sem s).protocol = .ipcp → (k.sem s).owner = none → (k.sem s).value = 1
  taken : ∀ s t, (k.sem s).protocol = .ipcp → (k.sem s).owner = some t → (k.sem s).value = 0
  inside_kind : ∀ t, ∀ s ∈ k.inside t, (k.sem s).protocol = .ipcp
  inside_nodup : ∀ t, (k.inside t).Nodup
  stacked : ∀ t, k.toSync.Stacked (k.priority t) (k.inside t)
  holder : ∀ t, k.inside t ≠ [] → k.Schedulable t
  calls : ∀ t s, k.call t = some (.p s) → (k.sem s).protocol ≠ .ipcp
  ahead : ∀ r h, k.running 0 = some r → k.inside h ≠ [] → h ≠ r → k.basePriority r ≤ k.priority h
  apart : ∀ x y, k.inside x ≠ [] → k.inside y ≠ [] → x ≠ y →
    k.basePriority x ≤ k.priority y ∨ k.basePriority y ≤ k.priority x

/-- Nobody is queued for an IPCP semaphore. -/
theorem IpcpInv.queue_nil (h : k.IpcpInv) (hs : (k.sem s).protocol = .ipcp) :
    (k.sem s).queue = [] := by
  have hlen := h.counted s (by simp [hs])
  have hval : 0 ≤ (k.sem s).value := by
    cases ho : (k.sem s).owner with
    | none => rw [h.free s hs ho]; decide
    | some t => rw [h.taken s t hs ho]
  exact List.eq_nil_of_length_eq_zero (by omega)

/-- A thread that is at least as urgent as every holder has a base priority that is
    at least as urgent as every other holder. -/
theorem IpcpInv.ahead_of_urgent (h : k.IpcpInv)
    (hn : ∀ x, k.inside x ≠ [] → k.priority n ≤ k.priority x) {x : Tid}
    (hx : k.inside x ≠ []) (hne : x ≠ n) : k.basePriority n ≤ k.priority x := by
  by_cases hin : k.inside n = []
  · rw [basePriority_of_nil hin]
    exact hn x hx
  · rcases h.apart n x hin hx hne.symm with hle | hle
    · exact hle
    · -- then `x` would be strictly behind itself
      have hlt : k.priority x < k.basePriority x := (h.stacked x).lt_base hx
      have := hn x hx
      omega

/-- Moves that leave the IPCP semaphores and the holders' priorities alone. -/
theorem IpcpInv.move (h : k.IpcpInv) (hwf : k'.WellFormed) (hcount : k'.toSync.Counted)
    (hsort : k'.Sorted) (hins : k'.inside = k.inside) (hstore : k'.store = k.store)
    (hprot : ∀ s, (k'.sem s).protocol = (k.sem s).protocol)
    (hsem : ∀ s, (k.sem s).protocol = .ipcp → k'.sem s = k.sem s)
    (hprio : ∀ x, k.inside x ≠ [] → k'.priority x = k.priority x)
    (hcalls : ∀ t s, k'.call t = some (.p s) → (k.sem s).protocol ≠ .ipcp)
    (hholder : ∀ t, k.inside t ≠ [] → k'.Schedulable t)
    (hahead : ∀ r x, k'.running 0 = some r → k.inside x ≠ [] → x ≠ r →
      k'.basePriority r ≤ k.priority x) : k'.IpcpInv := by
  -- what is held is immediate, so it does not change
  have hmem (t : Tid) (s : Sid) (hs : s ∈ k.inside t) : k'.sem s = k.sem s :=
    hsem s (h.inside_kind t s hs)
  have hceil (s : Sid) (hs : k'.sem s = k.sem s) : k'.ceiling s = k.ceiling s := by
    simp only [Sync.ceiling, hs, hstore]
  have hbase (x : Tid) (hx : k.inside x ≠ []) : k'.basePriority x = k.basePriority x := by
    simp only [basePriority, hins, hprio x hx]
    exact Sync.baseOf_congr fun s hs => by rw [hmem x s hs]
  constructor
  case wellFormed => exact hwf
  case counted => exact hcount
  case sorted => exact hsort
  case kind => exact fun s => by rw [hprot]; exact h.kind s
  case owner_iff =>
    intro s t hs
    rw [hprot] at hs
    rw [hins, hsem s hs]
    exact h.owner_iff s t hs
  case free =>
    intro s hs
    rw [hprot] at hs
    rw [hsem s hs]
    exact h.free s hs
  case taken =>
    intro s t hs
    rw [hprot] at hs
    rw [hsem s hs]
    exact h.taken s t hs
  case inside_kind =>
    intro t s hs
    rw [hins] at hs
    rw [hprot]
    exact h.inside_kind t s hs
  case inside_nodup => exact fun t => by rw [hins]; exact h.inside_nodup t
  case stacked =>
    intro t
    by_cases ht : k.inside t = []
    · rw [hins, ht]
      trivial
    · rw [hins, hprio t ht]
      exact (h.stacked t).congr fun s hs => ⟨by rw [hmem t s hs], hceil s (hmem t s hs)⟩
  case holder => exact fun t ht => hholder t (by rwa [hins] at ht)
  case calls => exact fun t s hc => by rw [hprot]; exact hcalls t s hc
  case ahead =>
    intro r x hr hx hne
    rw [hins] at hx
    rw [hprio x hx]
    exact hahead r x hr hx hne
  case apart =>
    intro x y hx hy hne
    rw [hins] at hx hy
    rw [hbase x hx, hbase y hy, hprio x hx, hprio y hy]
    exact h.apart x y hx hy hne

/-- Moves that only change who runs. -/
theorem IpcpInv.shuffle (h : k.IpcpInv) (hwf : k'.WellFormed) (hsort : k'.Sorted)
    (hsync : k'.toSync = k.toSync) (hins : k'.inside = k.inside)
    (hcalls : ∀ t s, k'.call t = some (.p s) → (k.sem s).protocol ≠ .ipcp)
    (hholder : ∀ t, k.inside t ≠ [] → k'.Schedulable t)
    (hrun : ∀ n, k'.running 0 = some n → k.running 0 = some n ∨
      ∀ x, k.inside x ≠ [] → k.priority n ≤ k.priority x) : k'.IpcpInv := by
  have hbase (x : Tid) : k'.basePriority x = k.basePriority x := by
    simp only [basePriority, hins, hsync]
  refine h.move hwf (by rw [hsync]; exact h.counted) hsort hins (by rw [hsync])
    (fun _ => by rw [hsync]) (fun _ _ => by rw [hsync]) (fun _ _ => by rw [hsync]) hcalls hholder ?_
  intro n x hn hx hne
  rw [hbase]
  rcases hrun n hn with hr | hmin
  · exact h.ahead n x hr hx hne
  · exact h.ahead_of_urgent hmin hx hne

/-- On one core the holders are all in the scheduling list. -/
theorem IpcpInv.holder_mem (h : k.IpcpInv) (h₁ : k.OneCore) {x : Tid} (hx : k.inside x ≠ []) :
    x ∈ (k.sched 0).toList :=
  (h.wellFormed.mem_iff 0 x).mpr ⟨h.holder x hx, h₁.core x⟩

/-- `reschedule()` keeps the invariant. -/
theorem IpcpInv.reschedule (h : k.IpcpInv) (h₁ : k.OneCore) : (k.reschedule 0).IpcpInv := by
  have hframe := frame_reschedule k 0
  refine h.shuffle h.wellFormed.reschedule h.sorted.reschedule hframe.toSync hframe.inside ?_ ?_ ?_
  · rw [hframe.call]
    exact h.calls
  · exact fun t ht => ((h.wellFormed.settles_reschedule) t).1.mpr (h.holder t ht)
  · intro n hn
    obtain ⟨r, hr⟩ := Option.isSome_iff_exists.mp
      (h.wellFormed.isSome 0 (by rw [h₁.cores]; exact Nat.one_pos))
    obtain ⟨n', hn', hcase⟩ := h.sorted.reschedule_running hr
    rw [hn] at hn'
    obtain rfl := Option.some.inj hn'
    rcases hcase with rfl | hmin
    · exact .inl hr
    · exact .inr fun x hx => hmin x (h.holder_mem h₁ hx)

/-- A preemption keeps the invariant. -/
theorem IpcpInv.preempt (h : k.IpcpInv) (h₁ : k.OneCore) {cpu : Nat} :
    (k.preempt 0 cpu).IpcpInv := by
  unfold Kernel.preempt
  split
  · exact h.reschedule h₁
  · exact h

/-- A thread that enters its list keeps the invariant, up to a switch. -/
theorem IpcpInv.insert (h : k.IpcpInv) (ht : ¬k.Schedulable t) (hlt : k.core t < k.cores)
    (hq : ∀ s, t ∉ (k.sem s).queue) (hj : ∀ u, k.joining u ≠ some t) :
    ((k.setState t .ready).insert t).IpcpInv := by
  refine h.shuffle (h.wellFormed.insert ht hlt hq hj) h.sorted.setState.insert rfl rfl h.calls ?_ ?_
  · exact fun x hx => (setState_ready_schedulable k t x).mpr (.inr (h.holder x hx))
  · intro n hn
    rw [insert_running (k := k.setState t .ready) (h.wellFormed.isSome _ hlt)] at hn
    exact .inl hn

/-- A thread that enters keeps the invariant. -/
theorem IpcpInv.enter (h : k.IpcpInv) (h₁ : k.OneCore) (ht : ¬k.Schedulable t)
    (hlt : k.core t < k.cores) (hq : ∀ s, t ∉ (k.sem s).queue)
    (hj : ∀ u, k.joining u ≠ some t) : (k.enter 0 t).IpcpInv :=
  (h.insert ht hlt hq hj).preempt (h₁.congr rfl)

/-- A thread that holds nothing leaves the core. -/
theorem IpcpInv.leave_ahead (h : k.IpcpInv) (h₁ : k.OneCore) (hr : k.running 0 = some t)
    (ht : k.inside t = []) (hsort : k'.Sorted) (hsched : k'.sched = k.sched)
    (hprio : k'.priority = k.priority) (hsys : k'.toSystem = k.toSystem) {n : Tid}
    (hn : (k'.leave t st).running 0 = some n) {x : Tid} (hx : k.inside x ≠ []) :
    k.priority n ≤ k.priority x := by
  have hcore : k'.core t = 0 := by rw [hsys]; exact h₁.core t
  have hr' : k'.running (k'.core t) = some t := by
    rw [hcore, running, hsched]
    exact hr
  rw [← hcore] at hn
  have hmin := hsort.leave_running hr' hn
  rw [hcore, hsched, hprio] at hmin
  refine hmin x ((SchedulingList.mem_toList.mp (h.holder_mem h₁ hx)).resolve_left fun hch => ?_)
  rw [running, hch] at hr
  obtain rfl := Option.some.inj hr
  exact hx ht

/-- Only the return from a `p()` on a resource does more than end the call. -/
theorem IpcpInv.complete_eq (h : k.IpcpInv)
    (hc : ∀ s, k.call t = some (.p s) → ¬(k.sem s).protocol.resource) :
    k.complete t = k.endCall t := by
  have hceil (s : Sid) : (k.endCall t).updateCeiling s = k.endCall t := by
    have hs : (k.sem s).protocol ≠ .srp ∧ (k.sem s).protocol ≠ .msrp := by
      rcases h.kind s with hs | hs <;> constructor <;> rintro hp <;>
        simp [hp, Protocol.resource] at hs
    exact updateCeiling_eq_self hs.1 hs.2
  unfold Kernel.complete
  split
  · rename_i s hcall
    dsimp only
    rw [hceil]
    exact if_neg (hc s hcall)
  · exact hceil _
  · rfl
  · rfl

/-- A call that is not a `p()` on an IPCP semaphore completes. -/
theorem IpcpInv.complete (h : k.IpcpInv) (hr : k.Schedulable t) : (k.complete t).IpcpInv := by
  have hwf := h.wellFormed.complete hr
  have hsort : (k.complete t).Sorted := h.sorted.complete
  rw [h.complete_eq fun s hs => (h.kind s).resolve_left (h.calls t s hs)] at hwf hsort ⊢
  refine h.shuffle hwf hsort rfl rfl (fun x s hx => ?_) h.holder fun n hn => .inl hn
  change Function.update k.call t none x = _ at hx
  have hxt : x ≠ t := by
    rintro rfl
    simp at hx
  exact h.calls x s (by simpa [hxt] using hx)

/-! ## `p()` and `v()` on an IPCP semaphore -/

/-- The semaphore that the running thread asks for is free: its holder would be
    ahead of the caller's base priority, which is behind the ceiling. -/
theorem IpcpInv.owner_none (h : k.IpcpInv) (hr : k.running 0 = some t)
    (hs : (k.sem s).protocol = .ipcp) (hnot : s ∉ k.inside t)
    (hd : k.ceiling s < k.basePriority t) : (k.sem s).owner = none := by
  by_contra hown
  obtain ⟨own, ho⟩ := Option.ne_none_iff_exists'.mp hown
  have hmem : s ∈ k.inside own := (h.owner_iff s own hs).mp ho
  have hne : own ≠ t := by
    rintro rfl
    exact hnot hmem
  have h₁ := (h.stacked own).le_ceiling hmem
  have h₂ := h.ahead t own hr (List.ne_nil_of_mem hmem) hne
  omega

/-- `p()` on a free semaphore takes it and raises the thread to the ceiling. -/
theorem IpcpInv.p_eq (h : k.IpcpInv) (hs : (k.sem s).protocol = .ipcp)
    (ho : (k.sem s).owner = none) : (k.toSync.p s t).2 = false ∧
      k.p t s =
        { k with
          priority := Function.update k.priority t (k.ceiling s)
          sem := Function.update k.sem s
            { k.sem s with owner := some t, priority := k.priority t, value := 0 }
          call := Function.update k.call t none
          inside := Function.update k.inside t (s :: k.inside t) } := by
  have hfree := Sync.p_free (t := t) (show (k.sem s).protocol.owned by simp [hs, Protocol.owned]) ho
  rw [h.free s hs ho] at hfree
  have hsleeps : (k.toSync.p s t).2 = false := by rw [hfree]; rfl
  refine ⟨hsleeps, ?_⟩
  have hprot : ((k.toSync.p s t).1.sem s).protocol = .ipcp := by rw [Sync.p_protocol, hs]
  -- a resource of IPCP has a fixed ceiling, so the end of p() updates nothing
  have hceil : ((k.callP t s).endCall t).updateCeiling s = (k.callP t s).endCall t := by
    refine updateCeiling_eq_self ?_ ?_ <;>
      (show ((k.toSync.p s t).1.sem s).protocol ≠ _; simp [hprot])
  unfold Kernel.p
  rw [hsleeps, if_neg (by simp)]
  unfold Kernel.complete
  rw [show (k.callP t s).call t = some (.p s) from Function.update_self _ _ _]
  dsimp only
  rw [hceil, if_pos (by
    show ((k.toSync.p s t).1.sem s).protocol.resource
    rw [hprot]
    rfl)]
  unfold hold endCall callP
  rw [hfree]
  simp [hs, Protocol.taken]

/-- The running thread acquires or releases `s`, and its priority becomes `p`. What it
    holds then stands in the order of the nesting, above the same base priority. -/
theorem IpcpInv.change (h : k.IpcpInv) (hr : k.running 0 = some t) {p : Int} {m : Semaphore}
    {l : List Sid} (hturn : Turn k k' t s m l) (hs : (k.sem s).protocol = .ipcp)
    (hprio : k'.priority = Function.update k.priority t p) (hstore : k'.store = k.store)
    (hown : ∀ x, m.owner = some x ↔ x = t ∧ s ∈ l) (hfree : m.owner = none → m.value = 1)
    (htaken : s ∈ l → m.value = 0)
    (hstack : k'.toSync.Stacked p l) (hbase : k'.toSync.baseOf p l = k.basePriority t)
    (hwf : k'.WellFormed) (hcount : k'.toSync.Counted) (hsort : k'.Sorted) : k'.IpcpInv := by
  have hceil (x : Sid) : k'.ceiling x = k.ceiling x := by
    simp only [Sync.ceiling, hstore, hturn.ceilings_eq x]
  have hpri {x : Tid} (hx : x ≠ t) : k'.priority x = k.priority x := by
    rw [hprio, Function.update_of_ne hx]
  have hbases (x : Tid) : k'.basePriority x = k.basePriority x := by
    unfold basePriority at *
    by_cases hx : x = t
    · subst hx
      rw [hprio, hturn.inside_self, Function.update_self]
      exact hbase
    · rw [hpri hx, hturn.inside_of_ne hx]
      exact Sync.baseOf_congr fun s' hs' => by rw [hturn.keeps hx hs']
  have hholder {x : Tid} (hx : k'.inside x ≠ []) (hxt : x ≠ t) : k.inside x ≠ [] := by
    rwa [hturn.inside_of_ne hxt] at hx
  constructor
  case wellFormed => exact hwf
  case counted => exact hcount
  case sorted => exact hsort
  case kind => exact fun x => by rw [hturn.protocol_eq]; exact h.kind x
  case owner_iff =>
    intro x u hx
    rw [hturn.protocol_eq] at hx
    by_cases hxs : x = s
    · subst hxs
      rw [hturn.sem_self, hown, hturn.mem_inside_self]
    · rw [hturn.sem_of_ne hxs, hturn.mem_inside_of_ne hxs]
      exact h.owner_iff x u hx
  case free =>
    intro x hx ho
    rw [hturn.protocol_eq] at hx
    by_cases hxs : x = s
    · subst hxs
      rw [hturn.sem_self] at ho ⊢
      exact hfree ho
    · rw [hturn.sem_of_ne hxs] at ho ⊢
      exact h.free x hx ho
  case taken =>
    intro x u hx ho
    rw [hturn.protocol_eq] at hx
    by_cases hxs : x = s
    · subst hxs
      rw [hturn.sem_self] at ho ⊢
      exact htaken ((hown u).mp ho).2
    · rw [hturn.sem_of_ne hxs] at ho ⊢
      exact h.taken x u hx ho
  case inside_kind =>
    intro u x hx
    rw [hturn.protocol_eq]
    rcases hturn.mem_inside hx with ⟨-, rfl, -⟩ | ⟨-, hx⟩
    · exact hs
    · exact h.inside_kind u x hx
  case inside_nodup => exact hturn.inside_nodup h.inside_nodup
  case stacked =>
    intro u
    by_cases hu : u = t
    · rw [hu, hprio, hturn.inside_self, Function.update_self]
      exact hstack
    · rw [hpri hu, hturn.inside_of_ne hu]
      exact (h.stacked u).congr fun s' hs' => ⟨by rw [hturn.keeps hu hs'], hceil s'⟩
  case holder =>
    exact fun u hu => hturn.holder (.inl (h.wellFormed.state_of_running hr).1) h.holder hu
  case calls =>
    intro u x hu
    rw [hturn.protocol_eq]
    exact h.calls u x (hturn.call_of_some hu)
  case ahead =>
    intro r x hr' hx hne
    rw [hturn.running, hr] at hr'
    obtain rfl := Option.some.inj hr'
    rw [hbases, hpri hne]
    exact h.ahead t x hr (hholder hx hne) hne
  case apart =>
    intro x y hx hy hne
    rw [hbases, hbases]
    -- the thread that changes is the running one
    by_cases hxt : x = t
    · subst hxt
      left
      rw [hpri (Ne.symm hne)]
      exact h.ahead x y hr (hholder hy (Ne.symm hne)) (Ne.symm hne)
    · by_cases hyt : y = t
      · subst hyt
        right
        rw [hpri hxt]
        exact h.ahead y x hr (hholder hx hxt) hxt
      · rw [hpri hxt, hpri hyt]
        exact h.apart x y (hholder hx hxt) (hholder hy hyt) hne

/-- `p()` on a free semaphore keeps the invariant. -/
theorem IpcpInv.p_ipcp (h : k.IpcpInv) (h₁ : k.OneCore) (hr : k.running 0 = some t)
    (hidle : t ≠ k.idle (k.core t)) (hs : (k.sem s).protocol = .ipcp)
    (hd : k.Disciplined (.p t s)) (hc : k.StaysAhead (.p t s)) : (k.p t s).IpcpInv := by
  simp only [Disciplined, hs, if_true] at hd
  have hnot : s ∉ k.inside t := hc hs
  have ho := h.owner_none hr hs hnot hd.1
  obtain ⟨-, heq⟩ := h.p_eq (t := t) hs ho
  have hr' : k.running (k.core t) = some t := by rw [h₁.core]; exact hr
  have hnone (x : Tid) : s ∉ k.inside x := by
    rw [← h.owner_iff s x hs, ho]
    simp
  have hsaved {x : Sid} (hx : x ∈ k.inside t) : (k.p t s).sem x = k.sem x := by
    rw [heq]
    refine Function.update_of_ne ?_ _ _
    rintro rfl
    exact hnot hx
  have hself : ((k.p t s).sem s).priority = k.priority t := by rw [heq]; simp
  have hceil (x : Sid) (hx : (k.p t s).sem x = k.sem x) : (k.p t s).ceiling x = k.ceiling x := by
    have hstore : (k.p t s).store = k.store := by rw [heq]
    simp only [Sync.ceiling, hx, hstore]
  have hturn : Turn k (k.p t s) t s { k.sem s with
      value := 0, owner := some t, priority := k.priority t } (s :: k.inside t) :=
    { sem := by rw [heq]
      call := by rw [heq]
      inside := by rw [heq]
      state := by rw [heq]
      running := by rw [heq]; rfl
      protocol := rfl
      ceilings := rfl
      others := fun x _ => hnone x
      held := fun x hx => by simp [hx]
      nodup := List.nodup_cons.mpr ⟨hnot, h.inside_nodup t⟩ }
  refine h.change hr hturn hs (by rw [heq]) (by rw [heq]) (fun x => ?_) (by simp) (by simp) ?_ ?_
    (h.wellFormed.p hr' hidle) (h.counted.step (a := .p t s))
    (h.sorted.p h.wellFormed hr' (by simp [RanksFit, ho]))
  · simp [eq_comm]
  · -- the ceiling is above the priority that it replaces
    refine ⟨?_, fun hnil => ?_, fun hne => ?_, ?_⟩
    · rw [heq]
      simp [Sync.ceiling]
    · rw [hself, ← basePriority_of_nil hnil]
      exact hd.1
    · rw [hself]
      exact hd.2 hne
    · rw [hself]
      exact (h.stacked t).congr fun x hx => ⟨by rw [hsaved hx], hceil x (hsaved hx)⟩
  · simp only [Sync.baseOf]
    rw [hself]
    exact Sync.baseOf_congr fun x hx => by rw [hsaved hx]

/-- `v()` by the owner restores the priority that was saved. -/
theorem IpcpInv.v_eq (h : k.IpcpInv) (hs : (k.sem s).protocol = .ipcp)
    (ho : (k.sem s).owner = some t) :
    k.v t s =
      { k with
        priority := Function.update k.priority t (k.sem s).priority
        sem := Function.update k.sem s { k.sem s with owner := none, priority := 0, value := 1 }
        call := Function.update k.call t none
        inside := Function.update k.inside t ((k.inside t).erase s) } := by
  have hlast := Sync.v_last (show (k.sem s).protocol.owned by simp [hs, Protocol.owned]) ho
    (h.queue_nil hs)
  rw [h.taken s t hs ho] at hlast
  have hprot : ((k.toSync.v s t).1.sem s).protocol = .ipcp := by rw [Sync.v_protocol, hs]
  -- a resource of IPCP has a fixed ceiling, so the end of v() updates nothing
  have hceil : ((k.callV t s).endCall t).updateCeiling s = (k.callV t s).endCall t := by
    refine updateCeiling_eq_self ?_ ?_ <;>
      (show ((k.toSync.v s t).1.sem s).protocol ≠ _; simp [hprot])
  unfold Kernel.v
  rw [show (k.toSync.v s t).2 = none by rw [hlast]]
  dsimp only
  unfold Kernel.complete
  rw [show (k.callV t s).call t = some (.v s) from Function.update_self _ _ _]
  dsimp only
  rw [hceil]
  unfold endCall callV
  rw [hlast]
  simp

/-- `v()` by the owner keeps the invariant. -/
theorem IpcpInv.v_ipcp (h : k.IpcpInv) (h₁ : k.OneCore) (hr : k.running 0 = some t)
    (hs : (k.sem s).protocol = .ipcp) (hd : k.Disciplined (.v t s)) : (k.v t s).IpcpInv := by
  obtain ⟨rest, hrest⟩ := List.head?_eq_some_iff.mp (hd hs)
  have hmem : s ∈ k.inside t := by rw [hrest]; exact List.mem_cons_self
  have ho : (k.sem s).owner = some t := (h.owner_iff s t hs).mpr hmem
  have heq := h.v_eq hs ho
  rw [hrest, List.erase_cons_head] at heq
  have hr' : k.running (k.core t) = some t := by rw [h₁.core]; exact hr
  have hnd := h.inside_nodup t
  rw [hrest, List.nodup_cons] at hnd
  -- what `t` still holds, and the ceilings of it, are as before
  have hsaved {x : Sid} (hx : x ∈ rest) : (k.v t s).sem x = k.sem x := by
    rw [heq]
    refine Function.update_of_ne ?_ _ _
    rintro rfl
    exact hnd.1 hx
  have hceil (x : Sid) (hx : (k.v t s).sem x = k.sem x) : (k.v t s).ceiling x = k.ceiling x := by
    have hstore : (k.v t s).store = k.store := by rw [heq]
    simp only [Sync.ceiling, hx, hstore]
  have hstack := h.stacked t
  rw [hrest] at hstack
  have hturn : Turn k (k.v t s) t s { k.sem s with owner := none, priority := 0, value := 1 }
      rest :=
    { sem := by rw [heq]
      call := by rw [heq]
      inside := by rw [heq]
      state := by rw [heq]
      running := by rw [heq]; rfl
      protocol := rfl
      ceilings := rfl
      others := fun x hx hmem' => hx <| by
        have hox := (h.owner_iff s x hs).mpr hmem'
        rw [ho] at hox
        exact (Option.some.inj hox).symm
      held := fun x hx => by
        rw [hrest, List.mem_cons]
        exact (or_iff_right hx).symm
      nodup := hnd.2 }
  refine h.change hr hturn hs (by rw [heq]) (by rw [heq]) (fun x => ?_) (fun _ => rfl)
    (fun hin => absurd hin hnd.1) ?_ ?_ (h.wellFormed.v hr') (h.counted.step (a := .v t s))
    (h.sorted.v h.wellFormed h.counted hr')
  · simp [hnd.1]
  · -- the rest of the stack begins at the priority that is restored
    exact hstack.2.2.2.congr fun x hx => ⟨by rw [hsaved hx], hceil x (hsaved hx)⟩
  · unfold basePriority
    rw [hrest]
    exact Sync.baseOf_congr fun x hx => by rw [hsaved hx]

/-! ## The other operations -/

/-- What `p()` and `v()` on a plain semaphore or a condition leave alone. -/
theorem IpcpInv.plain (h : k.IpcpInv) (hs : ¬(k.sem s).protocol.resource) :
    (∀ x, (k.sem x).protocol = .ipcp → x ≠ s) ∧ ∀ t, s ∉ k.inside t := by
  constructor
  · rintro x hx rfl
    rw [hx] at hs
    exact hs rfl
  · intro t hmem
    rw [h.inside_kind t s hmem] at hs
    exact hs rfl

/-- Moves that change one plain semaphore or condition and who runs. -/
theorem IpcpInv.move_plain (h : k.IpcpInv) (hs : ¬(k.sem s).protocol.resource) {σ : Sync}
    (hσ : σ.priority = k.priority ∧ σ.store = k.store ∧ ∀ x, x ≠ s → σ.sem x = k.sem x)
    (hprot : ∀ x, (σ.sem x).protocol = (k.sem x).protocol) (hsync : k'.toSync = σ)
    (hins : k'.inside = k.inside) (hwf : k'.WellFormed) (hcount : σ.Counted) (hsort : k'.Sorted)
    (hcalls : ∀ t x, k'.call t = some (.p x) → (k.sem x).protocol ≠ .ipcp)
    (hholder : ∀ t, k.inside t ≠ [] → k'.Schedulable t)
    (hrun : ∀ n, k'.running 0 = some n → k.running 0 = some n ∨
      ∀ x, k.inside x ≠ [] → k.priority n ≤ k.priority x) : k'.IpcpInv := by
  obtain ⟨hne, hnin⟩ := h.plain hs
  obtain ⟨hprio, hstore, hsem⟩ := hσ
  have hbase (x : Tid) : k'.basePriority x = k.basePriority x := by
    simp only [basePriority, hins, hsync, hprio]
    refine Sync.baseOf_congr fun s' hs' => ?_
    rw [hsem s' fun heq => hnin x (heq ▸ hs')]
  refine h.move hwf (by rw [hsync]; exact hcount) hsort hins (by rw [hsync, hstore])
    (fun x => by rw [hsync, hprot]) (fun x hx => by rw [hsync, hsem x (hne x hx)])
    (fun _ _ => by rw [hsync, hprio]) hcalls hholder fun n x hn hx hnx => ?_
  rw [hbase]
  rcases hrun n hn with hr | hmin
  · exact h.ahead n x hr hx hnx
  · exact h.ahead_of_urgent hmin hx hnx

/-- `p()` on another semaphore keeps the invariant. -/
theorem IpcpInv.p_plain (h : k.IpcpInv) (h₁ : k.OneCore) (hr : k.running 0 = some t)
    (hidle : t ≠ k.idle (k.core t)) (hs : ¬(k.sem s).protocol.resource)
    (hin : (k.toSync.p s t).2 = true → k.inside t = []) : (k.p t s).IpcpInv := by
  have hr' : k.running (k.core t) = some t := by rw [h₁.core]; exact hr
  have hrun : k.Schedulable t := .inl (h.wellFormed.state_of_running hr).1
  have hσ := Sync.p_of_not_owned (t := t) (owned_of_not_resource hs)
  -- `s` has no owner whose rank could be raised
  have hfit : k.RanksFit (.p t s) := by
    simp only [RanksFit]
    cases (k.sem s).owner with
    | none => trivial
    | some own => exact fun hown => absurd hown (owned_of_not_resource hs)
  have hcall : (k.callP t s).Sorted := by
    obtain ⟨hl, hq⟩ := h.sorted.sync_p h.wellFormed hr' hfit
    exact ⟨hl, hq⟩
  have hcalls (x : Tid) (s' : Sid) (hx : (k.callP t s).call x = some (.p s')) :
      (k.sem s').protocol ≠ .ipcp := by
    change Function.update k.call t _ x = _ at hx
    by_cases hxt : x = t
    · subst hxt
      rw [Function.update_self, Option.some.injEq, Call.p.injEq] at hx
      exact fun hi => (h.plain hs).1 s' hi hx.symm
    · rw [Function.update_of_ne hxt] at hx
      exact h.calls x s' hx
  have hwf := h.wellFormed.p hr' hidle (s := s)
  unfold Kernel.p at hwf ⊢
  split at hwf
  · rename_i hsleeps
    rw [if_pos hsleeps]
    -- only a thread that holds nothing may sleep
    have ht := hin hsleeps
    have hframe := frame_leave (k.callP t s) t .waiting
    obtain ⟨-, -, hold⟩ := h.wellFormed.leave_old hr' hidle
      (show State.waiting ≠ .running ∧ State.waiting ≠ .ready by simp)
      (show (k.callP t s).sched = k.sched from rfl) rfl rfl fun x hx => Function.update_of_ne hx _ _
    have hplaced : (k.callP t s).Placed := h.wellFormed.toPlaced.congr rfl rfl rfl
    refine h.move_plain hs hσ (Sync.p_protocol k.toSync s t) hframe.toSync hframe.inside hwf
      h.counted.p hcall.leave (fun x s' hx => hcalls x s' (by rwa [hframe.call] at hx)) ?_ ?_
    · intro x hx
      have hxt : x ≠ t := fun heq => hx (heq ▸ ht)
      exact ((hplaced.leave_state hr' hidle (by simp)).2 x hxt).1.mpr
        (h.holder x hx)
    · exact fun n hn => .inr fun x hx =>
        h.leave_ahead h₁ hr ht hcall rfl hσ.1 rfl hn hx
  · rename_i hsleeps
    rw [if_neg hsleeps]
    have hwf' : (k.callP t s).WellFormed := by
      refine h.wellFormed.call hrun rfl rfl rfl rfl (fun x hx => Function.update_of_ne hx _ _)
        fun s' => ?_
      show ((k.toSync.p s t).1.sem s').queue.Sublist _
      rw [Sync.p_queue, if_neg (by simp [hsleeps])]
    have hinv : (k.callP t s).IpcpInv :=
      h.move_plain hs hσ (Sync.p_protocol k.toSync s t) rfl rfl hwf' h.counted.p hcall hcalls
        h.holder fun n hn => .inl hn
    exact hinv.complete hrun

/-- `v()` on a plain semaphore or a condition, up to its `wakeup()`. -/
theorem IpcpInv.sync_v (h : k.IpcpInv) (hs : ¬(k.sem s).protocol.resource)
    (hsync : k'.toSync = (k.toSync.v s t).1) (hsched : k'.sched = k.sched)
    (hstate : k'.state = k.state) (hins : k'.inside = k.inside) (hwf : k'.WellFormed)
    (hsort : k'.Sorted) (hcall : ∀ x s', k'.call x = some (.p s') → k.call x = some (.p s')) :
    k'.IpcpInv := by
  refine h.move_plain hs (Sync.v_of_not_owned (owned_of_not_resource hs))
    (Sync.v_protocol k.toSync s t) hsync hins hwf h.counted.v hsort
    (fun x s' hx => h.calls x s' (hcall x s' hx)) (fun x hx => ?_) fun n hn => .inl ?_
  · rw [Schedulable, hstate]
    exact h.holder x hx
  · rw [running, hsched] at hn
    exact hn

/-- `v()` on another semaphore keeps the invariant. -/
theorem IpcpInv.v_plain (h : k.IpcpInv) (h₁ : k.OneCore) (hr : k.running 0 = some t)
    (hs : ¬(k.sem s).protocol.resource) : (k.v t s).IpcpInv := by
  have hr' : k.running (k.core t) = some t := by rw [h₁.core]; exact hr
  have hrun : k.Schedulable t := .inl (h.wellFormed.state_of_running hr).1
  have hcalls (x : Tid) (hx : x ≠ t) : (k.callV t s).call x = k.call x :=
    Function.update_of_ne hx _ _
  -- `t` does not hold `s`, which is no resource
  have hins : (k.callV t s).inside = k.inside := by
    show Function.update k.inside t ((k.inside t).erase s) = k.inside
    rw [List.erase_of_not_mem ((h.plain hs).2 t), Function.update_eq_self]
  have hsort : (k.callV t s).Sorted := by
    obtain ⟨hl, hq⟩ := h.sorted.sync_v h.wellFormed h.counted hr' (s := s)
    exact ⟨hl, hq⟩
  have hcall (hwf : (k.callV t s).WellFormed) : (k.callV t s).IpcpInv := by
    refine h.sync_v hs rfl rfl rfl hins hwf hsort fun x s' hx => ?_
    have hxt : x ≠ t := by
      rintro rfl
      change Function.update k.call x (some (.v s)) x = _ at hx
      rw [Function.update_self] at hx
      cases hx
    rwa [hcalls x hxt] at hx
  unfold Kernel.v
  split
  · rename_i hwoken
    exact (hcall (h.wellFormed.call hrun rfl rfl rfl rfl hcalls
      (v_queue_of_none hwoken))).complete hrun
  · -- the thread that was woken up enters its list, and may run at once
    rename_i u hwoken
    obtain ⟨hwf, hns, hlt, hq, hj⟩ :=
      h.wellFormed.woken hr' (show (k.callV t s).toSync = _ from rfl) hwoken rfl rfl rfl rfl hcalls
    have henter := (hcall hwf).enter (h₁.congr rfl) hns hlt hq hj
    rw [← h₁.core t] at henter
    dsimp only
    split
    · rename_i hr''
      exact henter.complete (.inl (henter.wellFormed.state_of_running hr'').1)
    · exact henter

/-- A handler keeps the invariant. -/
theorem IpcpInv.handler (h : k.IpcpInv) (h₁ : k.OneCore) (hc : c = 0)
    (hs : ¬(k.sem s).protocol.resource) : (k.handler c s).IpcpInv := by
  subst hc
  unfold Kernel.handler
  split
  · exact h
  · rename_i t hr
    have hr' : k.running (k.core t) = some t := by rw [h₁.core]; exact hr
    have hsort : (k.interruptV t s).Sorted := by
      obtain ⟨hl, hq⟩ := h.sorted.sync_v h.wellFormed h.counted hr' (s := s)
      exact ⟨hl, hq⟩
    have hcall (hwf : (k.interruptV t s).WellFormed) : (k.interruptV t s).IpcpInv :=
      h.sync_v hs rfl rfl rfl rfl hwf hsort fun _ _ hx => hx
    split
    · rename_i hwoken
      exact hcall (h.wellFormed.call (.inl (h.wellFormed.state_of_running hr).1) rfl rfl rfl rfl
        (fun _ _ => rfl) (v_queue_of_none hwoken))
    · rename_i u hwoken
      obtain ⟨hwf, hns, hlt, hq, hj⟩ :=
        h.wellFormed.woken hr (show (k.interruptV t s).toSync = _ from rfl) hwoken rfl rfl rfl rfl
          fun _ _ => rfl
      exact (hcall hwf).enter (h₁.congr rfl) hns hlt hq hj

/-- The constructor keeps the invariant. -/
theorem IpcpInv.create (h : k.IpcpInv) (h₁ : k.OneCore) (hc : c = 0) (ht : k.state t = none)
    (hlt : k.core t < k.cores) (hst : st = .ready ∨ st = .suspended) :
    (k.create c t st).IpcpInv := by
  subst hc
  obtain ⟨hns, hq, hj⟩ := h.wellFormed.unborn ht
  rcases hst with rfl | rfl
  · have hin := h.insert hns hlt hq hj
    unfold Kernel.create
    simp only [ne_eq, not_true_eq_false, reduceCtorEq, false_and, if_false]
    split
    · exact hin.preempt (h₁.congr rfl)
    · exact hin
  · have hwf : (k.setState t .suspended).WellFormed := h.wellFormed.setState ht (by simp) hlt
    rw [create_suspended h.wellFormed.toPlaced hns hlt]
    refine h.shuffle hwf h.sorted.setState rfl rfl h.calls (fun x hx => ?_) fun n hn => .inl hn
    have hxt : x ≠ t := fun heq => hns (heq ▸ h.holder x hx)
    unfold Schedulable
    rw [setState_state, if_neg hxt]
    exact h.holder x hx

/-- `yield()` outside of the critical sections keeps the invariant. -/
theorem IpcpInv.yield (h : k.IpcpInv) (h₁ : k.OneCore) (hr : k.running 0 = some t)
    (ht : k.inside t = []) : (k.yield t).IpcpInv := by
  have hr' : k.running (k.core t) = some t := by rw [h₁.core]; exact hr
  have hframe := frame_yield k t
  have hsort : (k.yield t).Sorted :=
    (h.sorted.setSched (SchedulingList.chooseAnother_sorted (h.sorted.list _))).dispatch
  refine h.shuffle (h.wellFormed.yield hr') hsort hframe.toSync hframe.inside
    (by rw [hframe.call]; exact h.calls)
    (fun x hx => (h.wellFormed.settles_yield hr' x).1.mpr (h.holder x hx)) fun n hn => ?_
  rw [← h₁.core t] at hn
  rcases h.sorted.yield_running hr' hn with rfl | hmin
  · exact .inl hr
  · refine .inr fun x hx => hmin x ?_
    rw [h₁.core]
    refine (SchedulingList.mem_toList.mp (h.holder_mem h₁ hx)).resolve_left fun hch => ?_
    rw [running, hch] at hr
    obtain rfl := Option.some.inj hr
    exact hx ht

/-- A thread that holds nothing gives the core up for a suspension. -/
theorem IpcpInv.leave (h : k.IpcpInv) (h₁ : k.OneCore) (hr : k.running 0 = some t)
    (hidle : t ≠ k.idle (k.core t)) (ht : k.inside t = []) (hst : st ≠ .running ∧ st ≠ .ready)
    (hsync : k'.toSync = k.toSync) (hins : k'.inside = k.inside) (hsched : k'.sched = k.sched)
    (hstate : k'.state = k.state) (hsys : k'.toSystem = k.toSystem)
    (hcall : ∀ x s, k'.call x = some (.p s) → k.call x = some (.p s))
    (hwf : (k'.leave t st).WellFormed) : (k'.leave t st).IpcpInv := by
  have hframe := frame_leave k' t st
  have hr' : k'.running (k'.core t) = some t := by rw [running, hsched, hsys, h₁.core]; exact hr
  have hidle' : t ≠ k'.idle (k'.core t) := by rwa [hsys]
  have hplaced : k'.Placed := h.wellFormed.toPlaced.congr hsched hstate hsys
  have hsort : k'.Sorted := h.sorted.congr (fun _ => by rw [hsched]) hsync
  refine h.shuffle hwf hsort.leave (hframe.toSync.trans hsync) (hframe.inside.trans hins)
    (fun x s hx => h.calls x s (hcall x s (by rwa [hframe.call] at hx))) (fun x hx => ?_) ?_
  · have hxt : x ≠ t := fun heq => hx (heq ▸ ht)
    refine ((hplaced.leave_state hr' hidle' hst).2 x hxt).1.mpr ?_
    rw [Schedulable, hstate]
    exact h.holder x hx
  · exact fun n hn => .inr fun x hx =>
      h.leave_ahead h₁ hr ht hsort hsched (by rw [hsync]) hsys hn hx

/-- `join()` outside of the critical sections keeps the invariant. -/
theorem IpcpInv.join (h : k.IpcpInv) (h₁ : k.OneCore) (hr : k.running 0 = some t)
    (hidle : t ≠ k.idle (k.core t)) (hin : k.state u ≠ some .finishing → k.inside t = [])
    (hu : k.joining u = none) : (k.join t u).IpcpInv := by
  have hr' : k.running (k.core t) = some t := by rw [h₁.core]; exact hr
  have hwf := h.wellFormed.join hr' hidle hu
  unfold Kernel.join at hwf ⊢
  split at hwf
  · rename_i hfin
    rw [if_pos hfin]
    exact h
  · rename_i hfin
    rw [if_neg hfin]
    refine h.leave h₁ hr hidle (hin hfin) (by simp) rfl rfl rfl rfl rfl (fun x s hx => ?_) hwf
    change Function.update k.call t _ x = _ at hx
    by_cases hxt : x = t
    · subst hxt
      simp at hx
    · rwa [Function.update_of_ne hxt] at hx

/-- `suspend()` outside of the critical sections keeps the invariant. -/
theorem IpcpInv.suspend (h : k.IpcpInv) (h₁ : k.OneCore) (hr : k.running 0 = some t)
    (hidle : u ≠ k.idle (k.core u)) (hin : k.inside u = [])
    (hu : u = t ∨ k.state u = some .ready) : (k.suspend t u).IpcpInv := by
  have hr' : k.running (k.core t) = some t := by rw [h₁.core]; exact hr
  have hwf := h.wellFormed.suspend hr' hidle hu
  -- t suspends itself, or a thread that is ready
  rcases hu with rfl | hu
  · exact h.leave h₁ hr hidle hin (by simp) rfl rfl rfl rfl rfl (fun _ _ hx => hx) hwf
  · -- u is ready: it leaves its list, and t goes on
    have hplaced : ((k.setState u .suspended).remove u).Placed :=
      h.wellFormed.remove_ready hu hidle (by simp)
    have hut : t ≠ u := by
      rintro rfl
      rw [(h.wellFormed.state_of_running hr).1] at hu
      cases hu
    have hstate (x : Tid) : ((k.setState u .suspended).remove u).state x =
        if x = u then some .suspended else k.state x := setState_state k u .suspended x
    -- t runs before and after, so dispatch() has nothing to do
    have hrun : ((k.setState u .suspended).remove u).running (k.core t) = some t := by
      refine (hplaced.running_iff _ t).mpr ⟨?_, rfl⟩
      rw [hstate, if_neg hut]
      exact (h.wellFormed.state_of_running hr).1
    unfold Kernel.suspend at hwf ⊢
    rw [dispatch_self hrun] at hwf ⊢
    refine h.shuffle hwf h.sorted.setState.remove rfl rfl h.calls (fun x hx => ?_) fun n hn => ?_
    · refine (setState_remove_schedulable (by simp)).mpr ⟨?_, h.holder x hx⟩
      rintro rfl
      exact hx hin
    · rw [h₁.core t, hn] at hrun
      exact .inl (by rw [hr, hrun])

/-- `resume()` keeps the invariant. -/
theorem IpcpInv.resume (h : k.IpcpInv) (h₁ : k.OneCore) (hc : c = 0)
    (hu : ¬(k.call u).any Call.isJoin) : (k.resume c u).IpcpInv := by
  subst hc
  unfold Kernel.resume
  split
  · rename_i hst
    refine h.enter h₁ (by simp [Schedulable, hst]) (h.wellFormed.core_lt u (by simp [hst]))
      (fun s hq => ?_) fun x hx => ?_
    · have := (h.wellFormed.queued s u hq).1
      rw [hst] at this
      cases this
    · rw [(h.wellFormed.joined x u hx).2] at hu
      exact hu rfl
  · exact h

/-- `exit()` chooses twice: the head of the list, and a most urgent thread. -/
theorem IpcpInv.exit (h : k.IpcpInv) (h₁ : k.OneCore) (hel : k.elector = .always)
    (hr : k.running 0 = some t) (hidle : t ≠ k.idle (k.core t)) (ht : k.inside t = []) :
    (k.exit t).IpcpInv := by
  have hr' : k.running (k.core t) = some t := by rw [h₁.core]; exact hr
  have hwf := h.wellFormed.exit hr' hidle
  have hsort : (k.exit t).Sorted := h.sorted.exit
  -- `k₁` is the kernel before the last `choose()`
  generalize hk₁ : ((k.setState t .finishing).remove t).resumeJoiner t = k₁
  have hexit : k.exit t =
      (k₁.setSched (k.core t) fun l =>
        l.choose k₁.priority (k₁.eligible (k.core t))).dispatch (k.core t) t := by
    rw [← hk₁]
    rfl
  have hframe := frame_resumeJoiner ((k.setState t .finishing).remove t) t
  rw [hk₁] at hframe
  have hsync : k₁.toSync = k.toSync := hframe.toSync
  have hsys : k₁.toSystem = k.toSystem := hframe.toSystem
  have hsort₁ : k₁.Sorted := by
    rw [← hk₁]
    exact h.sorted.setState.remove.resumeJoiner
  obtain ⟨hsw, -⟩ := h.wellFormed.exit_switching hr' hidle
  rw [hk₁] at hsw
  have hch := hsw.setSched (f := fun l => l.choose k₁.priority (k₁.eligible (k.core t)))
    SchedulingList.choose_perm (SchedulingList.choose_isSome (hsw.isSome _ hsw.lt))
  -- holders stay on the core
  have hkeep (x : Tid) (hx : k.inside x ≠ []) : k₁.Schedulable x := by
    have hxt : x ≠ t := fun heq => hx (heq ▸ ht)
    have hrem : ((k.setState t .finishing).remove t).Schedulable x :=
      (setState_remove_schedulable (by simp)).mpr ⟨hxt, h.holder x hx⟩
    rw [← hk₁]
    unfold resumeJoiner
    split
    · exact hrem
    · exact (setState_ready_schedulable _ _ x).mpr (.inr hrem)
  refine h.shuffle hwf hsort ?_ ?_ (fun x s hx => h.calls x s ?_) (fun x hx => ?_) fun n hn => .inr ?_
  · exact (frame_exit k t).toSync
  · exact (frame_exit k t).inside
  · rwa [(frame_exit k t).call] at hx
  · rw [hexit]
    exact hch.dispatch_schedulable.mpr (hkeep x hx)
  · intro x hx
    rw [hexit, running, dispatch_sched, h₁.core, setSched_sched, if_pos rfl] at hn
    have hmem : x ∈ (k₁.sched 0).toList := by
      refine (hsw.mem_iff 0 x).mpr ⟨hkeep x hx, ?_⟩
      rw [hsys]
      exact h₁.core x
    have := hsort₁.takesMostUrgent.choose 0 n hn
      (fun y _ => by simp [eligible, hsys, hel]) x hmem
    rwa [hsync] at this

/-- A thread that holds nothing takes a new rank. -/
theorem IpcpInv.rank (h : k.IpcpInv) (h₁ : k.OneCore) {p : Int} (hin : k.inside u = [])
    (hahead : k.running 0 = some u → ∀ x ∈ (k.sched 0).list, k.inside x ≠ [] → p ≤ k.priority x)
    (hsync : k'.toSync = k.toSync.setPriority u p) (hins : k'.inside = k.inside)
    (hcall : k'.call = k.call) (hstate : k'.state = k.state) (hsys : k'.toSystem = k.toSystem)
    (hwf : k'.WellFormed) (hsort : k'.Sorted) : k'.IpcpInv := by
  have hprio : k'.priority = Function.update k.priority u p := by rw [hsync]; rfl
  have hsem : k'.sem = k.sem := by rw [hsync]; rfl
  refine h.move hwf ?_ hsort hins (by rw [hsync]; rfl) (fun _ => by rw [hsem])
    (fun _ _ => by rw [hsem]) (fun x hx => ?_) (by rw [hcall]; exact h.calls) (fun x hx => ?_) ?_
  · intro s
    rw [hsem]
    exact h.counted s
  · -- a holder is not the thread whose rank changes
    rw [hprio, Function.update_of_ne]
    rintro rfl
    exact hx hin
  · rw [Schedulable, hstate]
    exact h.holder x hx
  · intro r x hr hx hne
    rw [h.wellFormed.running_congr hwf.toPlaced hstate (by rw [hsys])] at hr
    -- the running thread holds nothing, so its base priority is the new rank
    by_cases hru : r = u
    · subst hru
      rw [basePriority_of_nil (by rw [hins, hin]), hprio, Function.update_self]
      refine hahead hr x ?_ hx
      refine (SchedulingList.mem_toList.mp (h.holder_mem h₁ hx)).resolve_left fun hch => hne ?_
      rw [running, hch] at hr
      exact Option.some.inj hr
    · have hbase : k'.basePriority r = k.basePriority r := by
        simp only [basePriority, hins, hprio, Function.update_of_ne hru]
        exact Sync.baseOf_congr fun s _ => by rw [hsem]
      rw [hbase]
      exact h.ahead r x hr hx hne

/-- `priority()` keeps the invariant if the thread stays behind the holders. -/
theorem IpcpInv.setCriterion (h : k.IpcpInv) (h₁ : k.OneCore) {p : Int} (hu : k.Schedulable u)
    (hin : k.inside u = []) (hc : k.StaysAhead (.priority c u p)) :
    (k.setCriterion c u p).IpcpInv := by
  have hre : (k.reorder u p).toSync = k.toSync.setPriority u p ∧
      (k.reorder u p).inside = k.inside ∧ (k.reorder u p).call = k.call ∧
      (k.reorder u p).state = k.state ∧ (k.reorder u p).toSystem = k.toSystem := by
    unfold reorder
    split <;> exact ⟨rfl, rfl, rfl, rfl, rfl⟩
  obtain ⟨hsync, hins, hcall, hstate, hsys⟩ := hre
  unfold Kernel.setCriterion
  dsimp only
  rw [if_neg (by rw [hsys]; exact h₁.smp)]
  exact h.rank h₁ hin hc hsync hins hcall hstate hsys (h.wellFormed.reorder hu)
    (h.sorted.reorder h.wellFormed hu)

/-- `update()` keeps the invariant if the thread stays behind the holders. -/
theorem IpcpInv.update (h : k.IpcpInv) (h₁ : k.OneCore) {elapsed : Int}
    (hin : k.inside u = []) (hc : k.StaysAhead (.update u elapsed)) :
    (k.update u elapsed).IpcpInv := by
  have hwf : (k.update u elapsed).WellFormed := h.wellFormed.update
  have hsort : (k.update u elapsed).Sorted :=
    h.sorted.update h.wellFormed fun hrt => (hc hrt).1
  unfold Kernel.update at hwf hsort ⊢
  split at hwf
  · rename_i hrt
    rw [if_pos hrt] at hsort ⊢
    exact h.rank h₁ hin (hc hrt).2 rfl rfl rfl rfl rfl hwf hsort
  · rename_i hrt
    rw [if_neg hrt]
    exact h

/-- Every step keeps the invariant. -/
theorem IpcpInv.step (h : k.IpcpInv) (h₁ : k.OneCore) (hel : k.elector = .always) {a : Action}
    (ha : k.CanAct a) (hd : k.Disciplined a) (hc : k.StaysAhead a) : (k.step a).IpcpInv := by
  -- there is one core
  have hrun {t : Tid} (hr : k.running (k.core t) = some t) : k.running 0 = some t := by
    rwa [h₁.core] at hr
  have hcore {c : Nat} (hlt : c < k.cores) : c = 0 := by
    have := h₁.cores
    omega
  cases a with
  -- `p()` and `v()` differ for a resource and for a plain semaphore
  | p t s =>
    by_cases hs : (k.sem s).protocol = .ipcp
    · exact h.p_ipcp h₁ (hrun ha.1.1) ha.2 hs hd hc
    · simp only [Disciplined, hs, if_false] at hd
      exact h.p_plain h₁ (hrun ha.1.1) ha.2 ((h.kind s).resolve_left hs) hd
  | v t s =>
    by_cases hs : (k.sem s).protocol = .ipcp
    · exact h.v_ipcp h₁ (hrun ha.1) hs hd
    · exact h.v_plain h₁ (hrun ha.1) ((h.kind s).resolve_left hs)
  | ret t => exact h.complete (.inl (h.wellFormed.state_of_running ha.1).1)
  | create c t st => exact h.create h₁ (hcore ha.1) ha.2.1 ha.2.2.1 ha.2.2.2
  | yield t => exact h.yield h₁ (hrun ha.1) hd
  | exit t => exact h.exit h₁ hel (hrun ha.1.1) ha.2 hd
  | join t u => exact h.join h₁ (hrun ha.1.1) ha.2.1 hd ha.2.2.2.1
  | suspend t u => exact h.suspend h₁ (hrun ha.1.1) ha.2.1 hd ha.2.2
  | resume c u => exact h.resume h₁ (hcore ha.1) ha.2
  | reschedule c =>
    obtain rfl := hcore ha
    exact h.reschedule h₁
  | handler c s => exact h.handler h₁ (hcore ha.1) ha.2
  | priority c u prio => exact h.setCriterion h₁ ha.2 hd hc
  | update u elapsed => exact h.update h₁ hd hc

/-! ## Runs -/

/-- Every thread of `D` waits for a resource that a thread of `D` owns. -/
def Deadlocked (k : Kernel) (D : Set Tid) : Prop :=
  D.Nonempty ∧ ∀ t ∈ D, ∃ s, (k.sem s).protocol.resource ∧ t ∈ (k.sem s).queue ∧
    ∃ u ∈ D, (k.sem s).owner = some u

/-- The running thread is as urgent as every owner of an IPCP semaphore, nobody
    sleeps in the `p()` of one, and no threads deadlock. -/
structure NeverBlocks (k : Kernel) : Prop where
  urgent : ∀ r s own, k.running 0 = some r → (k.sem s).protocol = .ipcp →
    (k.sem s).owner = some own → k.priority r ≤ k.priority own
  awake : ∀ s, (k.sem s).protocol = .ipcp →
    (k.sem s).queue = [] ∧ ∀ t, k.call t ≠ some (.p s)
  alive : ∀ D, ¬k.Deadlocked D

/-- No thread is below its base priority. -/
theorem IpcpInv.le_base (h : k.IpcpInv) (t : Tid) : k.priority t ≤ k.basePriority t := by
  by_cases ht : k.inside t = []
  · exact (basePriority_of_nil ht).ge
  · exact ((h.stacked t).lt_base ht).le

/-- In such a state nobody is blocked. -/
theorem IpcpInv.neverBlocks (h : k.IpcpInv) : k.NeverBlocks where
  urgent := by
    intro r s own hr hs ho
    have hmem : s ∈ k.inside own := (h.owner_iff s own hs).mp ho
    by_cases heq : own = r
    · rw [heq]
    · exact (h.le_base r).trans (h.ahead r own hr (List.ne_nil_of_mem hmem) heq)
  awake := fun s hs => ⟨h.queue_nil hs, fun t ht => h.calls t s ht hs⟩
  alive := by
    rintro D ⟨⟨t, ht⟩, hD⟩
    obtain ⟨s, hs, hq, -⟩ := hD t ht
    rw [h.queue_nil ((h.kind s).resolve_right fun hn => hn hs)] at hq
    cases hq

/-- The invariant holds at boot. -/
theorem Boot.ipcpInv (h : k.Boot)
    (hkind : ∀ s, (k.sem s).protocol = .ipcp ∧ (k.sem s).value = 1 ∨ ¬(k.sem s).protocol.resource) :
    k.IpcpInv := by
  -- at the start nobody is inside
  have hin (t : Tid) (ht : k.inside t ≠ []) : False := ht (h.inside_nil t)
  constructor
  case wellFormed => exact h.toWellFormed
  case counted => exact h.counted
  case sorted => exact h.sorted
  case kind => exact fun s => (hkind s).imp_left And.left
  case owner_iff => exact fun s t _ => by simp [h.owner_none, h.inside_nil]
  case free =>
    intro s hs _
    rcases hkind s with hs' | hs'
    · exact hs'.2
    · rw [hs] at hs'
      exact absurd rfl hs'
  case taken => exact fun s t _ ho => by simp [h.owner_none] at ho
  case inside_kind => exact fun t s hs => by simp [h.inside_nil] at hs
  case inside_nodup => exact fun t => by simp [h.inside_nil]
  case stacked =>
    intro t
    rw [h.inside_nil]
    trivial
  case holder => exact fun t ht => (hin t ht).elim
  case calls => exact fun t s ht => by simp [h.call_none] at ht
  case ahead => exact fun _ x _ hx => (hin x hx).elim
  case apart => exact fun x _ hx => (hin x hx).elim

end Kernel

/-- One core with IPCP semaphores of value 1 used as they are meant to be, next to
    plain semaphores and conditions. -/
def ipcpKernel : TransitionSystem Kernel Action where
  Init k := k.Boot ∧ k.OneCore ∧ k.elector = .always ∧
    ∀ s, (k.sem s).protocol = .ipcp ∧ (k.sem s).value = 1 ∨ ¬(k.sem s).protocol.resource
  Enabled k a := k.CanAct a ∧ k.Disciplined a
  next := Kernel.step

instance (k : Kernel) (a : Action) : Decidable (ipcpKernel.Enabled k a) :=
  inferInstanceAs (Decidable (k.CanAct a ∧ k.Disciplined a))

namespace Kernel

/-- A thread of priority 9 runs; the ceiling of every semaphore is 4. -/
def ipcpExample : Kernel :=
  single { priority := fun t => if t = 8 then Priority.idle else t
           sem := fun s => if s < 2 then { protocol := .ipcp } else { protocol := .plain }
           store := fun _ _ => 4 } 9 8 .always (fun _ => 0) []

/-- The kernel of the example has booted. -/
theorem ipcpExample_init : ipcpKernel.Init ipcpExample := by
  have hkind (s : Sid) : (ipcpExample.sem s).protocol = .ipcp ∧ (ipcpExample.sem s).value = 1 ∨
      ¬(ipcpExample.sem s).protocol.resource := by
    by_cases hs : s < 2
    · simp only [ipcpExample, single, if_pos hs]
      exact .inl (by decide)
    · simp only [ipcpExample, single, if_neg hs]
      exact .inr (by decide)
  refine ⟨single_boot (by decide) (fun s => ?_) (fun s => ?_) fun s => ?_,
    ⟨rfl, by decide, rfl, fun _ => rfl⟩, rfl, hkind⟩ <;> by_cases hs : s < 2 <;> simp [hs]

end Kernel

end Epos
