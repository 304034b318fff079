import Epos.Kernel.LinkedKernel
import Epos.Spec.LinkedListCorrect
import Epos.Spec.WellFormed

/-!
# The kernel on lists in memory refines the kernel on lists

As long as every header represents a list and no element is in two of them, an
operation on the lists in memory succeeds and does what the operation of
`Epos.Kernel.Thread` does to the lists. `Consistent` is what all of them keep, even
where a thread is suspended that runs on another core.
-/

namespace Epos

/-! ## The lists -/

namespace Lists

variable {m : Lists} {sched : Nat → SchedulingList} {queue : Sid → List Tid} {c : Nat} {s : Sid}
  {t : Tid} {S : List Tid}

/-- The lists of the scheduler and the waiting queues. -/
def contents (sched : Nat → SchedulingList) (queue : Sid → List Tid) : ListId → List Tid
  | .ready c => (sched c).list
  | .queue s => queue s

/-- The headers in memory represent these lists. -/
structure Holds (m : Lists) (sched : Nat → SchedulingList) (queue : Sid → List Tid) : Prop where
  lists : m.links.Holds m.header (contents sched queue)
  chosen : ∀ c, m.chosen c = (sched c).chosen

/-- The `_link` of `t` is in no list. -/
def Unlisted (sched : Nat → SchedulingList) (queue : Sid → List Tid) (t : Tid) : Prop :=
  ∀ i, t ∉ contents sched queue i

/-- The contents with one ready list changed. -/
theorem contents_update_ready (sched : Nat → SchedulingList) (queue : Sid → List Tid) (c : Nat)
    (a : SchedulingList) : contents (Function.update sched c a) queue =
      Function.update (contents sched queue) (.ready c) a.list := by
  funext i
  cases i with
  | ready d =>
    by_cases hd : d = c
    · subst hd
      simp [contents]
    · have hne : ListId.ready d ≠ .ready c := fun heq => hd (ListId.ready.inj heq)
      rw [Function.update_of_ne hne]
      show (Function.update sched c a d).list = (sched d).list
      rw [Function.update_of_ne hd]
  | queue s => rfl

/-- The contents with one queue changed. -/
theorem contents_update_queue (sched : Nat → SchedulingList) (queue : Sid → List Tid) (s : Sid)
    (l : List Tid) : contents sched (Function.update queue s l) =
      Function.update (contents sched queue) (.queue s) l := by
  funext i
  cases i with
  | ready d => rfl
  | queue r =>
    by_cases hr : r = s
    · subst hr
      simp [contents]
    · have hne : ListId.queue r ≠ .queue s := fun heq => hr (ListId.queue.inj heq)
      rw [Function.update_of_ne hne]
      exact Function.update_of_ne hr _ _

/-- The list that was set. -/
@[simp] theorem setList_list (m : Lists) (i : ListId) (q : LinkedList Tid) :
    (m.setList i q).list i = q := by
  unfold list setList
  dsimp only
  rw [Function.update_self]

/-- The headers of the other lists stay. -/
theorem setList_header (m : Lists) (i j : ListId) (q : LinkedList Tid) :
    (m.setList i q).header j = if j = i then q.header else m.header j :=
  Function.update_apply ..

/-- The ready list that was set. -/
theorem setSched_list (m : Lists) (c : Nat) (s : LinkedSchedulingList Tid) :
    (m.setSched c s).list (.ready c) = s.toLinkedList := by
  unfold list setSched
  dsimp only
  rw [Function.update_self]

/-- A ready list that was set with the chosen thread of before. -/
theorem setSched_listed (m : Lists) (c : Nat) (q : LinkedList Tid) :
    m.setSched c ⟨q, m.chosen c⟩ = m.setList (.ready c) q := by
  unfold setSched setList
  rw [Function.update_eq_self]

/-- Every scheduling list is represented. -/
theorem Holds.readyList (h : m.Holds sched queue) (c : Nat) : (m.sched c).Represents (sched c) :=
  ⟨h.lists.represents (.ready c), h.chosen c⟩

/-- Every queue is represented. -/
theorem Holds.waitingQueue (h : m.Holds sched queue) (s : Sid) :
    (m.list (.queue s)).Represents (queue s) :=
  h.lists.represents (.queue s)

/-- A scheduling list may change with elements that are in no other list. -/
theorem Holds.setSched (h : m.Holds sched queue) {q : LinkedSchedulingList Tid}
    {a : SchedulingList} (hm : (m.sched c).Moves q a S) (ha : a.list ⊆ S)
    (hS : ∀ x ∈ S, x ∈ (sched c).list ∨ Unlisted sched queue x) :
    (m.setSched c q).Holds (Function.update sched c a) queue := by
  constructor
  · rw [contents_update_ready]
    exact h.lists.update (f := contents sched queue) (i := .ready c) hm.represents.list hm.eqOff ha hS
  · intro d
    show Function.update m.chosen c q.chosen d = _
    by_cases hd : d = c
    · subst hd
      rw [Function.update_self, Function.update_self]
      exact hm.represents.chosen
    · rw [Function.update_of_ne hd, Function.update_of_ne hd]
      exact h.chosen d

/-- A queue may change with elements that are in no other list. -/
theorem Holds.setQueue (h : m.Holds sched queue) {q : LinkedList Tid} {l : List Tid}
    (hm : (m.list (.queue s)).Moves q l S) (hl : l ⊆ S)
    (hS : ∀ x ∈ S, x ∈ queue s ∨ Unlisted sched queue x) :
    (m.setList (.queue s) q).Holds sched (Function.update queue s l) := by
  constructor
  · rw [contents_update_queue]
    exact h.lists.update (f := contents sched queue) (i := .queue s) hm.represents hm.eqOff hl hS
  · exact h.chosen

/-- The chosen thread of the list that changed. -/
theorem Holds.chosen_update {a : SchedulingList}
    (h : m.Holds (Function.update sched c a) queue) : m.chosen c = a.chosen := by
  rw [h.chosen, Function.update_self]

/-- The links of threads in no list are free. -/
theorem Holds.setLinks (h : m.Holds sched queue) (ht : Unlisted sched queue t) {L : Links Tid}
    (hL : m.links.EqOff L [t]) : ({ m with links := L } : Lists).Holds sched queue := by
  refine ⟨⟨fun i => (h.lists.represents i).congr hL fun x hx hxt => ?_, h.lists.disjoint⟩,
    h.chosen⟩
  exact ht i (List.mem_singleton.mp hxt ▸ hx)

end Lists

/-! ## The scheduler -/

namespace LinkedKernel

open Epos.Lists

variable {k k' : LinkedKernel} {sched : Nat → SchedulingList} {queue : Sid → List Tid} {c : Nat}
  {s : Sid} {t u prev next : Tid} {st : State} {S : List Tid}

/-- The kernel of `Epos.Kernel.Thread` with the scheduling lists that are stored, and no
    semaphores. -/
def view (k : LinkedKernel) (sched : Nat → SchedulingList) : Kernel where
  priority := k.priority
  sem _ := { protocol := .condition }
  store _ _ := 0
  preemptive := k.preemptive
  smp := k.smp
  cores := k.cores
  idle := k.idle
  core := k.core
  state := k.state
  sched := sched
  joining := k.joining

/-- An operation on a scheduling list, on the links. -/
theorem onSched_eq (h : k.Holds sched queue)
    {f : LinkedSchedulingList Tid → Option (LinkedSchedulingList Tid)} {a : SchedulingList}
    (hf : ∃ q, f (k.sched c) = some q ∧ (k.sched c).Moves q a S) (ha : a.list ⊆ S)
    (hS : ∀ x ∈ S, x ∈ (sched c).list ∨ Unlisted sched queue x) :
    ∃ m, k.onSched c f = some (k.setLists m) ∧
      m.Holds (Function.update sched c a) queue := by
  obtain ⟨q, heq, hm⟩ := hf
  refine ⟨k.setSched c q, ?_, h.setSched hm ha hS⟩
  unfold onSched
  rw [heq]
  rfl

/-- On a core that runs a thread, only its ready list changes. -/
theorem insert_cases (hsome : (k.chosen (k.core t)).isSome) (heq : k.insert t = some k') :
    ∃ q, (k.list (.ready (k.core t))).orderedInsert k.priority t = some q ∧
      k' = k.setLists (k.setList (.ready (k.core t)) q) := by
  obtain ⟨s, hs, rfl⟩ := Option.map_eq_some_iff.mp heq
  obtain ⟨q, hq, rfl⟩ := LinkedSchedulingList.insert_listed hsome hs
  exact ⟨q, hq, congrArg k.setLists (setSched_listed ..)⟩

/-- Removing a thread that is not chosen goes to the ready list. -/
theorem remove_cases (hch : k.chosen (k.core t) ≠ some t) (heq : k.remove t = some k') :
    ∃ q, (k.list (.ready (k.core t))).remove t = some q ∧
      k' = k.setLists (k.setList (.ready (k.core t)) q) := by
  obtain ⟨s, hs, rfl⟩ := Option.map_eq_some_iff.mp heq
  obtain ⟨q, hq, rfl⟩ := LinkedSchedulingList.remove_listed hch hs
  exact ⟨q, hq, congrArg k.setLists (setSched_listed ..)⟩

/-- Inserting adds one thread. -/
theorem insert_list_subset (a : SchedulingList) (rank : Tid → Int) (t : Tid) :
    (a.insert rank t).list ⊆ t :: a.list := by
  unfold SchedulingList.insert
  split
  · exact (List.perm_insertRank _ _ _).subset
  · exact List.subset_cons_self _ _

/-- Removing adds none. -/
theorem remove_list_subset (a : SchedulingList) (t : Tid) : (a.remove t).list ⊆ a.list := by
  unfold SchedulingList.remove
  split
  · exact (List.tail_sublist _).subset
  · exact List.erase_subset

/-- `insert` on the links is what the kernel sees. -/
theorem insert_eq (h : k.Holds sched queue) (ht : Unlisted sched queue t) :
    ∃ m, k.insert t = some (k.setLists m) ∧
      m.Holds ((k.view sched).insert t).sched queue := by
  apply onSched_eq h ((h.readyList (k.core t)).insert (ht (.ready (k.core t))))
    (insert_list_subset _ _ _)
  intro x hx
  cases List.mem_cons.mp hx with
  | inl heq => exact .inr (heq ▸ ht)
  | inr hx => exact .inl hx

/-- `remove` on the links is what the kernel sees. -/
theorem remove_eq (h : k.Holds sched queue) (ht : t ∈ (sched (k.core t)).toList) :
    ∃ m, k.remove t = some (k.setLists m) ∧
      m.Holds ((k.view sched).remove t).sched queue :=
  onSched_eq h ((h.readyList (k.core t)).remove ht) (remove_list_subset _ _) fun _ hx => .inl hx

/-- The operations that only permute what a scheduling list holds. -/
theorem permute_eq (h : k.Holds sched queue) {e : Tid} (hch : (sched c).chosen = some e)
    (he : Unlisted sched queue e)
    {f : LinkedSchedulingList Tid → Option (LinkedSchedulingList Tid)} {a : SchedulingList}
    (hf : ∃ q, f (k.sched c) = some q ∧ (k.sched c).Moves q a (sched c).toList)
    (hperm : a.toList.Perm (sched c).toList) :
    ∃ m, k.onSched c f = some (k.setLists m) ∧
      m.Holds (Function.update sched c a) queue := by
  apply onSched_eq h hf
  · exact fun x hx => hperm.mem_iff.mp (SchedulingList.mem_toList_of_list hx)
  · intro x hx
    cases SchedulingList.mem_toList.mp hx with
    | inl hx =>
      rw [hch, Option.some.injEq] at hx
      exact .inr (hx ▸ he)
    | inr hx => exact .inl hx

/-- `dispatch()` touches no list. -/
theorem dispatch_toLists (k : LinkedKernel) (prev next : Tid) :
    (k.dispatch prev next).toLists = k.toLists := by
  unfold dispatch
  split
  · rfl
  · dsimp only
    split <;> rfl

/-- `dispatch()` is what the kernel sees. -/
theorem dispatch_view (hnext : (sched c).chosen = some next) :
    (k.dispatch prev next).view sched = (k.view sched).dispatch c prev := by
  have hrun : (k.view sched).running c = some next := hnext
  unfold dispatch Kernel.dispatch
  rw [hrun]
  dsimp only
  by_cases hne : prev = next
  · rw [if_pos hne, if_pos hne]
  · rw [if_neg hne, if_neg hne]
    show _ = (if k.state prev = some .running then _ else _ : Kernel).setState next .running
    split <;> rfl

/-! ## Queues -/

/-- What `queue->insert` makes of the list. -/
def enqueued (k : LinkedKernel) (s : Sid) (t : Tid) (l : List Tid) : List Tid :=
  if k.fifo s then l ++ [t] else l.insertRank k.priority t

/-- Who is queued after enqueueing. -/
theorem mem_enqueued {x : Tid} {l : List Tid} : x ∈ k.enqueued s t l ↔ x = t ∨ x ∈ l := by
  unfold enqueued
  split
  · rw [List.mem_append, List.mem_singleton, or_comm]
  · exact List.mem_insertRank

/-- Enqueueing, on the links. -/
theorem enqueue_eq (h : k.Holds sched queue) (ht : Unlisted sched queue t) :
    ∃ m, k.enqueue s t = some (k.setLists m) ∧
      m.Holds sched (Function.update queue s (k.enqueued s t (queue s))) := by
  have hq := h.waitingQueue s
  have hnt : t ∉ queue s := ht (.queue s)
  have hS (x : Tid) (hx : x ∈ t :: queue s) : x ∈ queue s ∨ Unlisted sched queue x := by
    cases List.mem_cons.mp hx with
    | inl heq => exact .inr (heq ▸ ht)
    | inr hx => exact .inl hx
  -- the queue of MSRP is in the order of arrival, the others are sorted by rank
  have hins : ∃ q, (if k.fifo s then (k.list (.queue s)).insertTail t
      else (k.list (.queue s)).orderedInsert k.priority t) = some q ∧
      (k.list (.queue s)).Moves q (k.enqueued s t (queue s)) (t :: queue s) := by
    unfold enqueued
    by_cases hf : k.fifo s
    · rw [if_pos hf, if_pos hf]
      exact hq.insertTail hnt
    · rw [if_neg hf, if_neg hf]
      exact hq.orderedInsert k.priority hnt
  obtain ⟨q, heq, hm⟩ := hins
  refine ⟨k.setList (.queue s) q, ?_, h.setQueue hm (fun x hx => ?_) hS⟩
  · unfold enqueue
    dsimp only
    rw [heq]
    rfl
  · exact List.mem_cons.mpr (mem_enqueued.mp hx)

/-- Dequeueing, on the links. -/
theorem dequeue_eq (h : k.Holds sched queue) :
    ∃ m, k.dequeue s = some ((queue s).head?, k.setLists m) ∧
      m.Holds sched (Function.update queue s (queue s).tail) := by
  obtain ⟨q, heq, hm⟩ := (h.waitingQueue s).removeHead
  refine ⟨k.setList (.queue s) q, ?_, h.setQueue hm (List.tail_sublist _).subset fun x hx => .inl hx⟩
  unfold dequeue
  rw [heq]
  rfl

end LinkedKernel

end Epos
