import Epos.Kernel.Mutex

/-!
# Mutual exclusion and order of the mutex

An `unlock()` with threads in the queue leaves `_locked` set: the thread that it wakes
up is past its `tsl` already. So the flag accounts for the holder and for the thread
that was handed the mutex together, and the queue is ordered by priority and arrival.
-/

namespace Epos

namespace MutexRun

variable {r : MutexRun} {t u : Tid}

/-- Those who have the mutex: inside, or handed it by a `wakeup()`. -/
def owners (r : MutexRun) : List Tid := r.holders ++ r.handed

/-- At most one thread is inside, `_locked` says whether the mutex has an owner, and
    nobody is queued while it is clear. -/
structure Exclusive (r : MutexRun) : Prop where
  atMostOne : ∀ t u, t ∈ r.holders → u ∈ r.holders → t = u
  once : r.holders.Nodup
  locked_iff : r.mutex.locked = true ↔ ∃ t, t ∈ r.holders ∨ t ∈ r.handed
  queue_nil : r.mutex.locked = false → r.mutex.queue = []

/-- `t` is served before `u`: it is more urgent, or as urgent and waits longer. -/
def Before (r : MutexRun) (t u : Tid) : Prop :=
  r.priority t < r.priority u ∨ r.priority t = r.priority u ∧ r.arrival t < r.arrival u

/-- What the operations may do. An `unlock()` hands the mutex to the queued thread that
    is before all others, if there is one; a `lock()` on an owned mutex waits; and who
    was handed the mutex keeps it until it returns, with nobody inside meanwhile. -/
structure Fair (r : MutexRun) (a : MutexAction) : Prop where
  handsOver : ∀ t, a = .unlock t → r.mutex.queue ≠ [] →
    ∃ u ∈ r.mutex.queue, (r.step a).handed = [u] ∧ u ∉ (r.step a).mutex.queue ∧
      ∀ w ∈ r.mutex.queue, w ≠ u → r.Before u w
  waits : ∀ t, a = .lock t → r.mutex.locked = true →
    t ∈ (r.step a).mutex.queue ∧ (r.step a).holders = r.holders
  notOvertaken : ∀ u ∈ r.handed, a ≠ .ret u →
    u ∈ (r.step a).handed ∧ (r.step a).holders = []

/-- What every step keeps. -/
structure Inv (r : MutexRun) : Prop where
  owners_le : r.owners.length ≤ 1
  locked_iff : r.mutex.locked = true ↔ r.owners ≠ []
  queue_nil : r.mutex.locked = false → r.mutex.queue = []
  nodup : r.mutex.queue.Nodup
  ordered : r.mutex.queue.Pairwise r.Before
  arrived : ∀ t ∈ r.mutex.queue, r.arrival t < r.time
  asleep : ∀ t ∈ r.handed, t ∉ r.mutex.queue

/-- The mutex has no owner, a thread inside, or one that was handed it. -/
theorem Inv.owner_cases (h : r.Inv) : r.holders = [] ∧ r.handed = [] ∨
    (∃ t, r.holders = [t] ∧ r.handed = []) ∨ ∃ t, r.holders = [] ∧ r.handed = [t] := by
  have hle := h.owners_le
  unfold owners at hle
  match hh : r.holders, hd : r.handed with
  | [], [] => exact .inl ⟨rfl, rfl⟩
  | [t], [] => exact .inr (.inl ⟨t, rfl, rfl⟩)
  | [], [t] => exact .inr (.inr ⟨t, rfl, rfl⟩)
  | [], _ :: _ :: _ => simp [hh, hd] at hle
  | _ :: _, _ :: _ => simp [hh, hd] at hle
  | _ :: _ :: _, [] => simp [hh, hd] at hle

/-- A holder is the only one. -/
theorem Inv.of_holder (h : r.Inv) (ht : t ∈ r.holders) : r.holders = [t] ∧ r.handed = [] := by
  obtain ⟨hh, -⟩ | ⟨x, hh, hd⟩ | ⟨x, hh, -⟩ := h.owner_cases
  · simp [hh] at ht
  · rw [hh, List.mem_singleton] at ht
    exact ⟨ht ▸ hh, hd⟩
  · simp [hh] at ht

/-- A thread to which the mutex was handed is the only one. -/
theorem Inv.of_handed (h : r.Inv) (ht : t ∈ r.handed) : r.holders = [] ∧ r.handed = [t] := by
  obtain ⟨-, hd⟩ | ⟨x, -, hd⟩ | ⟨x, hh, hd⟩ := h.owner_cases
  · simp [hd] at ht
  · simp [hd] at ht
  · rw [hd, List.mem_singleton] at ht
    exact ⟨hh, ht ▸ hd⟩

/-- While somebody has the mutex it is locked. -/
theorem Inv.locked_of_owner (h : r.Inv) (ht : t ∈ r.holders ∨ t ∈ r.handed) :
    r.mutex.locked = true :=
  h.locked_iff.mpr (List.ne_nil_of_mem (List.mem_append.mpr ht))

/-- The invariant gives mutual exclusion. -/
theorem Inv.exclusive (h : r.Inv) : r.Exclusive where
  atMostOne t u ht hu := by
    rw [(h.of_holder ht).1, List.mem_singleton] at hu
    exact hu.symm
  once := by
    obtain ⟨hh, -⟩ | ⟨x, hh, -⟩ | ⟨x, hh, -⟩ := h.owner_cases
    · simp [hh]
    · simp [hh]
    · simp [hh]
  locked_iff := by
    constructor
    · intro hl
      obtain ⟨t, ht⟩ := List.exists_mem_of_ne_nil _ (h.locked_iff.mp hl)
      exact ⟨t, List.mem_append.mp ht⟩
    · exact fun ⟨t, ht⟩ => h.locked_of_owner ht
  queue_nil := h.queue_nil

/-- The queue is sorted by priority. -/
theorem Inv.rankSorted (h : r.Inv) : r.mutex.queue.RankSorted r.priority :=
  h.ordered.imp fun hb => hb.elim le_of_lt fun hb => hb.1.le

/-- Only the priorities and the arrivals of the queued threads matter to their order. -/
theorem Inv.ordered_congr (h : r.Inv) {r' : MutexRun}
    (hp : ∀ t ∈ r.mutex.queue, r'.priority t = r.priority t)
    (ha : ∀ t ∈ r.mutex.queue, r'.arrival t = r.arrival t) :
    r.mutex.queue.Pairwise r'.Before := by
  refine h.ordered.imp_of_mem fun {x y} hx hy hb => ?_
  unfold Before
  rw [hp x hx, hp y hy, ha x hx, ha y hy]
  exact hb

/-! ## The operations -/

/-- `lock()` on a locked mutex queues its thread. -/
theorem lock_of_locked (hl : r.mutex.locked = true) :
    r.lock t = { r with
      mutex := { locked := true, queue := r.mutex.queue.insertRank r.priority t }
      arrival := Function.update r.arrival t r.time
      time := r.time + 1 } := by
  simp [MutexRun.lock, Mutex.lock, hl]

/-- `lock()` on a free one takes it. -/
theorem lock_of_free (hl : r.mutex.locked = false) :
    r.lock t = { r with
      mutex := { r.mutex with locked := true }
      holders := t :: r.holders } := by
  simp [MutexRun.lock, Mutex.lock, hl]

/-- `unlock()` with nobody queued frees the mutex. -/
theorem Inv.unlock_nil (h : r.Inv) (ht : t ∈ r.holders) (hq : r.mutex.queue = []) :
    r.unlock t = { r with mutex := {}, holders := [], handed := [] } := by
  obtain ⟨hh, hd⟩ := h.of_holder ht
  simp [MutexRun.unlock, Mutex.unlock, hq, hh, hd]

/-- `unlock()` with a queue hands it to the head. -/
theorem Inv.unlock_cons (h : r.Inv) (ht : t ∈ r.holders) {rest : List Tid}
    (hq : r.mutex.queue = u :: rest) :
    r.unlock t = { r with
      mutex := { locked := true, queue := rest }, holders := [], handed := [u] } := by
  obtain ⟨hh, hd⟩ := h.of_holder ht
  simp [MutexRun.unlock, Mutex.unlock, hq, hh, hd, h.locked_of_owner (.inl ht)]

/-- The thread to which it was handed returns from `lock()`. -/
theorem Inv.ret_eq (h : r.Inv) (ht : t ∈ r.handed) :
    r.ret t = { r with holders := [t], handed := [] } := by
  obtain ⟨hh, hd⟩ := h.of_handed ht
  simp [MutexRun.ret, hh, hd]

/-- `lock()` keeps the invariant. -/
theorem Inv.lock (h : r.Inv) (ht : r.Awake t) : (r.lock t).Inv := by
  cases hl : r.mutex.locked with
  | true =>
    rw [lock_of_locked hl]
    have hne (x : Tid) (hx : x ∈ r.mutex.queue) : x ≠ t := fun heq => ht.1 (heq ▸ hx)
    -- the caller arrives last, so it is behind all of its priority
    have harr (x : Tid) (hx : x ∈ r.mutex.queue) :
        Function.update r.arrival t r.time x = r.arrival x := Function.update_of_ne (hne x hx) _ _
    refine { h with
      locked_iff := ⟨fun _ => h.locked_iff.mp hl, fun _ => rfl⟩
      queue_nil := fun hf => absurd hf (by simp)
      nodup := List.nodup_insertRank.mpr ⟨ht.1, h.nodup⟩
      ordered := ?_
      arrived := ?_
      asleep := ?_ }
    · refine List.pairwise_insertRank h.rankSorted (h.ordered_congr (fun _ _ => rfl) harr)
        (fun x hx hle => ?_) fun x _ hlt => .inl hlt
      cases lt_or_eq_of_le hle with
      | inl hlt => exact .inl hlt
      | inr heq =>
        refine .inr ⟨heq, ?_⟩
        show Function.update r.arrival t r.time x < Function.update r.arrival t r.time t
        rw [harr x hx, Function.update_self]
        exact h.arrived x hx
    · intro x hx
      show Function.update r.arrival t r.time x < r.time + 1
      cases List.mem_insertRank.mp hx with
      | inl heq =>
        rw [heq, Function.update_self]
        exact Nat.lt_succ_self _
      | inr hx =>
        rw [harr x hx]
        exact (h.arrived x hx).trans (Nat.lt_succ_self _)
    · intro x hx hmem
      cases List.mem_insertRank.mp hmem with
      | inl heq => exact ht.2 (heq ▸ hx)
      | inr hmem => exact h.asleep x hx hmem
  | false =>
    have hnil : r.owners = [] := by
      by_contra hne
      rw [h.locked_iff.mpr hne] at hl
      cases hl
    have hboth := List.append_eq_nil_iff.mp hnil
    rw [lock_of_free hl]
    exact { h with
      owners_le := by simp [owners, hboth.1, hboth.2]
      locked_iff := by simp [owners]
      queue_nil := fun hf => absurd hf (by simp) }

/-- `unlock()` keeps the invariant. -/
theorem Inv.unlock (h : r.Inv) (ht : t ∈ r.holders) : (r.unlock t).Inv := by
  cases hq : r.mutex.queue with
  | nil =>
    rw [h.unlock_nil ht hq]
    exact ⟨by simp [owners], by simp [owners], fun _ => rfl, List.nodup_nil, .nil,
      fun _ hx => absurd hx List.not_mem_nil, fun _ hx => absurd hx List.not_mem_nil⟩
  | cons u rest =>
    have hnodup := h.nodup
    have hordered := h.ordered
    rw [hq] at hnodup hordered
    rw [h.unlock_cons ht hq]
    refine ⟨by simp [owners], by simp [owners], fun hf => absurd hf (by simp),
      (List.nodup_cons.mp hnodup).2, (List.pairwise_cons.mp hordered).2, fun x hx => ?_,
      fun x hx => ?_⟩
    · exact h.arrived x (hq ▸ List.mem_cons_of_mem _ hx)
    · rw [List.mem_singleton.mp hx]
      exact (List.nodup_cons.mp hnodup).1

/-- The return keeps the invariant. -/
theorem Inv.ret (h : r.Inv) (ht : t ∈ r.handed) : (r.ret t).Inv := by
  rw [h.ret_eq ht]
  have hl := h.locked_of_owner (.inr ht)
  exact { h with
    owners_le := by simp [owners]
    locked_iff := by simp [owners, hl]
    asleep := fun _ hx => absurd hx List.not_mem_nil }

/-- Every step keeps the invariant. -/
theorem Inv.step (h : r.Inv) {a : MutexAction} (ha : r.CanAct a) : (r.step a).Inv := by
  cases a with
  | lock t => exact h.lock ha
  | unlock t => exact h.unlock ha.2
  | ret t => exact h.ret ha
  | setPriority t p =>
    have hne (x : Tid) (hx : x ∈ r.mutex.queue) : x ≠ t := by
      intro heq
      exact ha (heq ▸ hx)
    exact { h with
      ordered := h.ordered_congr (fun x hx => Function.update_of_ne (hne x hx) _ _)
        fun _ _ => rfl }

/-- Threads get the mutex in the order in which they were queued. -/
theorem Inv.fair (h : r.Inv) {a : MutexAction} (ha : r.CanAct a) : r.Fair a where
  handsOver t heq hne := by
    subst heq
    -- unlock() of the holder hands the mutex to the head of the queue, which is first by rank
    obtain ⟨u, rest, hq⟩ := List.exists_cons_of_ne_nil hne
    have hnodup := h.nodup
    have hordered := h.ordered
    rw [hq] at hnodup hordered
    have hstep : r.step (.unlock t) = _ := h.unlock_cons ha.2 hq
    rw [hstep, hq]
    refine ⟨u, List.mem_cons_self, rfl, (List.nodup_cons.mp hnodup).1, fun w hw hwu => ?_⟩
    exact (List.pairwise_cons.mp hordered).1 w ((List.mem_cons.mp hw).resolve_left hwu)
  waits t heq hl := by
    -- lock() finds the mutex locked and puts the thread into the queue
    subst heq
    have hstep : r.step (.lock t) = _ := lock_of_locked hl
    rw [hstep]
    exact ⟨List.mem_insertRank.mpr (.inl rfl), rfl⟩
  notOvertaken u hu hne := by
    -- the mutex was handed over but its new owner is not back yet: it stays the owner
    obtain ⟨hh, hd⟩ := h.of_handed hu
    cases a with
    | lock t =>
      have hstep : r.step (.lock t) = _ := lock_of_locked (h.locked_of_owner (.inr hu))
      rw [hstep]
      exact ⟨hu, hh⟩
    | unlock t =>
      have ht : t ∈ r.holders := ha.2
      rw [hh] at ht
      cases ht
    | ret t =>
      have ht : t ∈ r.handed := ha
      rw [hd, List.mem_singleton] at ht
      exact absurd (ht ▸ rfl) hne
    | setPriority t p => exact ⟨hu, hh⟩

/-- The invariant holds for a new mutex. -/
theorem inv_init (hr : system.Init r) : r.Inv := by
  obtain ⟨hm, hh, hd⟩ := hr
  constructor <;> simp [owners, hm, hh, hd]

end MutexRun

open MutexRun

/-- For any number of threads and every interleaving of `lock()` and of `unlock()` by
    the holder: the mutex is exclusive in every state, and every step is fair. -/
theorem mutex_exclusive_fair {r : MutexRun} (hr : system.Init r) (as : List MutexAction)
    (hv : system.Valid r as) : system.Always Exclusive r as ∧ system.Meets Fair r as := by
  have hstep (r : MutexRun) (a : MutexAction) (h : r.Inv) (ha : r.CanAct a) : (r.step a).Inv :=
    h.step ha
  constructor
  · have halways : system.Always Inv r as :=
      TransitionSystem.Meets.always (C := fun _ _ => True) (fun r a h ha _ => hstep r a h ha)
        (inv_init hr) hv (TransitionSystem.meets_true _ _)
    exact halways.imp fun _ h => h.exclusive
  · exact hv.meets hstep (fun _ _ h ha => h.fair ha) (inv_init hr)

/-- Two threads wait, the younger one is more urgent and is handed the mutex; a
    newcomer waits. -/
theorem mutex_exclusive_fair_three :
    system.Always Exclusive { priority := fun t => 10 - t }
        [.lock 1, .lock 2, .lock 3, .unlock 1, .lock 4, .ret 3, .unlock 3] ∧
      system.Meets Fair { priority := fun t => 10 - t }
        [.lock 1, .lock 2, .lock 3, .unlock 1, .lock 4, .ret 3, .unlock 3] :=
  mutex_exclusive_fair ⟨rfl, rfl, rfl⟩ _ (by decide)

end Epos
