import Epos.Spec.ListAccesses
import Epos.Spec.ObserverCorrect

/-!
# What concurrent observers receive

The lists of all observers of a condition are parts of one sequence, the data notified under
it, so that they can share the links of the data. This needs notifications of a condition
that do not overlap, observers that are attached without data of another sequence, or of an
earlier part of this one, in their lists, and list operations of one observer that do not
overlap. Those of different observers may.
-/

namespace Epos

/-! ## The semaphore -/

namespace ConcurrentObserver

variable {δ : Type*} {x : ConcurrentObserver δ} {returned added requested : Nat}

/-- As many calls have passed the semaphore as there are data or calls, and the others sleep. -/
structure Balanced (x : ConcurrentObserver δ) (returned added requested : Nat) : Prop where
  value : x.value = (added : Int) - requested
  passed : x.passed + x.removing.length + returned = min requested added
  sleeping : x.sleeping + x.passed + x.removing.length + returned = requested

/-- A call that has passed the semaphore may go on and return. -/
theorem Balanced.of_calls {x' : ConcurrentObserver δ} {returned' : Nat}
    (h : x.Balanced returned added requested) (hvalue : x'.value = x.value)
    (hsleeping : x'.sleeping = x.sleeping)
    (hcalls : x'.passed + x'.removing.length + returned' =
      x.passed + x.removing.length + returned) : x'.Balanced returned' added requested := by
  refine ⟨hvalue.trans h.value, hcalls.trans h.passed, ?_⟩
  have hall := h.sleeping
  omega

/-- A call sleeps, or goes on at once. -/
theorem Balanced.p (h : x.Balanced returned added requested) :
    x.p.Balanced returned added (requested + 1) := by
  obtain ⟨hvalue, hpassed, hsleeping⟩ := h
  unfold ConcurrentObserver.p
  split <;> constructor <;> dsimp only <;> omega

/-- A unit wakes up a call that sleeps, or is left for the next one. -/
theorem Balanced.v (h : x.Balanced returned added requested) :
    x.v.Balanced returned (added + 1) requested := by
  obtain ⟨hvalue, hpassed, hsleeping⟩ := h
  unfold ConcurrentObserver.v
  split <;> constructor <;> dsimp only <;> omega

/-- The list operations do not take part in `p()`. -/
theorem list_p : x.p.list = x.list ∧ x.p.removing = x.removing := by
  unfold ConcurrentObserver.p
  split <;> exact ⟨rfl, rfl⟩

/-- Nor in `v()`. -/
theorem list_v : x.v.list = x.list ∧ x.v.removing = x.removing := by
  unfold ConcurrentObserver.v
  split <;> exact ⟨rfl, rfl⟩

end ConcurrentObserver

namespace ConcurrentObserved

variable {α δ : Type*} [DecidableEq α] [DecidableEq δ] {s : ConcurrentObserved α δ} {o : α}
  {c c' : Int} {d : δ} {queue : List δ} {pend taken : Option δ}

/-! ## The sequences of data -/

omit [DecidableEq α] [DecidableEq δ] in
/-- The data notified under a condition. -/
def under (s : ConcurrentObserved α δ) (c : Int) : List δ :=
  (s.notified.filter (·.1 = c)).map Prod.snd

omit [DecidableEq α] [DecidableEq δ] in
/-- The sequence of a condition has what was notified under it. -/
theorem mem_under : d ∈ s.under c ↔ (c, d) ∈ s.notified := by
  unfold under
  constructor
  · intro h
    obtain ⟨⟨c', d'⟩, hmem, rfl⟩ := List.mem_map.mp h
    obtain ⟨hnotified, hc⟩ := List.mem_filter.mp hmem
    obtain rfl : c' = c := of_decide_eq_true hc
    exact hnotified
  · exact fun h => List.mem_map.mpr ⟨_, List.mem_filter.mpr ⟨h, decide_eq_true rfl⟩, rfl⟩

omit [DecidableEq α] [DecidableEq δ] in
/-- No datum is in a sequence twice. -/
theorem nodup_under (h : (s.notified.map Prod.snd).Nodup) (c : Int) : (s.under c).Nodup :=
  h.sublist (List.filter_sublist.map _)

omit [DecidableEq α] [DecidableEq δ] in
/-- A datum is notified under one condition. -/
theorem under_unique (h : (s.notified.map Prod.snd).Nodup) (hd : d ∈ s.under c)
    (hd' : d ∈ s.under c') : c = c' := by
  have heq := List.inj_on_of_nodup_map h (mem_under.mp hd) (mem_under.mp hd') rfl
  exact congrArg Prod.fst heq

/-! ## The invariant -/

omit [DecidableEq δ] in
/-- Where the update of `o` with the datum that it has still to get is. -/
def progress (s : ConcurrentObserved α δ) (o : α) : Option δ → InsertPoint δ
  | none => .empty
  | some d => if (s.left d).head? = some o then s.point d else .empty

omit [DecidableEq δ] in
/-- Only the update of the first observer that is left has begun. -/
theorem progress_some (s : ConcurrentObserved α δ) (o : α) (d : δ) :
    s.progress o (some d) = if (s.left d).head? = some o then s.point d else .empty := rfl

/-- The list of an observer and the operation on it that is under way: the insertion of `pend` or
    the removal of `taken`, in front of what is in the list. -/
inductive Shape (next : δ → Option δ) (x : ConcurrentObserver δ) (p : InsertPoint δ)
    (queue : List δ) (pend : Option δ) : Option δ → Prop
  | inserting (hremoving : x.removing = []) (hfits : p.Fits next x.list queue pend) :
    Shape next x p queue pend none
  | removing {r : RemovePoint δ} {d : δ} (hremoving : x.removing = [r]) (hstill : p.Still)
    (hfits : r.Fits next x.list d (queue ++ p.landed pend)) : Shape next x p queue pend (some d)

/-- What an observer has in its list, the datum that a call of `updated()` is about to return, and
    the one that a notification still has to give it a unit for. -/
structure Holds (s : ConcurrentObserved α δ) (o : α) (taken : Option δ) (queue : List δ)
    (pend : Option δ) : Prop where
  shape : Shape s.next (s.observer o) (s.progress o pend) queue pend taken
  expected : s.expected o = s.returned o ++ taken.toList ++ queue ++ pend.toList
  left : ∀ d, o ∈ s.left d ↔ pend = some d
  part : ∃ c, taken.toList ++ queue ++ (s.progress o pend).begun pend <:+: s.under c
  attached : ∀ c, (o, c) ∈ s.observation.attached → queue ++ pend.toList <:+ s.under c
  sublist : (s.expected o).Sublist (s.notified.map Prod.snd)
  balance : (s.observer o).Balanced (s.returned o).length
    ((s.returned o).length + taken.toList.length + queue.length) (s.requested o)

structure Inv (s : ConcurrentObserved α δ) : Prop where
  alive : s.failed = false
  listed : s.observation.Listed .conditional
  distinct : (s.notified.map Prod.snd).Nodup
  left : ∀ d, ∀ o ∈ s.left d, ∃ c, (o, c) ∈ s.observation.attached ∧ (s.under c).getLast? = some d
  nodup : ∀ d, (s.left d).Nodup
  point : ∀ d, s.left d = [] → s.point d = .empty
  observers : ∀ o, ∃ taken queue pend, s.Holds o taken queue pend

/-- The last datum of a condition. -/
def last (s : ConcurrentObserved α δ) (c : Int) : Option δ := (s.under c).getLast?

/-- No notification of the condition is going on. Who is attached has an empty list or one that
    ends with the last datum of the condition. `insert()` and `remove()` begin on a list that is in
    the middle of neither. -/
def Orderly (s : ConcurrentObserved α δ) : ConcurrentAction α δ → Prop
  | .notify c _ => ∀ n ∈ s.notified, n.1 = c → s.left n.2 = []
  | .attach o c => (s.observer o).list.size = 0 ∨ (s.observer o).list.tail = s.last c
  | .update d =>
    s.point d = .empty → ∀ o ∈ (s.left d).head?, (s.observer o).removing = []
  | .remove o =>
    (s.observer o).removing = [] ∧
      ∀ n ∈ s.notified, (s.left n.2).head? = some o → (s.point n.2).Still
  | _ => True

/-- The data that `o` was attached for are returned in the order of the notifications, each
    once, and as soon as there are calls of `updated()` for them. No null pointer is followed. -/
structure Delivers (s : ConcurrentObserved α δ) : Prop where
  alive : s.failed = false
  order : ∀ o, s.returned o <+: s.expected o
  once : ∀ o, (s.expected o).Nodup
  complete : ∀ o,
    (s.observer o).passed + (s.observer o).removing.length + (s.returned o).length =
      min (s.requested o) ((s.expected o).filter fun d => o ∉ s.left d).length

omit [DecidableEq δ] in
/-- What an observer has got a unit for. -/
theorem Holds.filter_eq (h : s.Holds o taken queue pend) (hnd : (s.expected o).Nodup) :
    (s.expected o).filter (fun d => o ∉ s.left d) = s.returned o ++ taken.toList ++ queue := by
  have hleft := h.left
  rw [h.expected] at hnd ⊢
  obtain ⟨-, -, hdisj⟩ := List.nodup_append.mp hnd
  rw [List.filter_append]
  have hpend : pend.toList.filter (fun d => o ∉ s.left d) = [] := by
    rw [List.filter_eq_nil_iff]
    intro d hd
    rw [decide_eq_true_eq, not_not]
    exact (hleft d).mpr (Option.mem_toList.mp hd)
  have hkept : (s.returned o ++ taken.toList ++ queue).filter (fun d => o ∉ s.left d) =
      s.returned o ++ taken.toList ++ queue := by
    rw [List.filter_eq_self]
    intro d hd
    rw [decide_eq_true_eq]
    intro hmem
    exact hdisj d hd d (Option.mem_toList.mpr ((hleft d).mp hmem)) rfl
  rw [hpend, hkept, List.append_nil]

omit [DecidableEq δ] in
/-- The invariant gives what the observers are promised. -/
theorem Inv.delivers (h : s.Inv) : s.Delivers := by
  have honce (o : α) : (s.expected o).Nodup := by
    obtain ⟨taken, queue, pend, ho⟩ := h.observers o
    exact h.distinct.sublist ho.sublist
  refine ⟨h.alive, fun o => ?_, honce, fun o => ?_⟩
  · obtain ⟨taken, queue, pend, ho⟩ := h.observers o
    refine ⟨taken.toList ++ queue ++ pend.toList, ?_⟩
    rw [ho.expected]
    simp only [List.append_assoc]
  · obtain ⟨taken, queue, pend, ho⟩ := h.observers o
    rw [ho.filter_eq (honce o), List.length_append, List.length_append]
    exact ho.balance.passed

/-! ## What a step leaves to an observer -/

omit [DecidableEq α] [DecidableEq δ] in
/-- Only the links that the operation goes through matter. -/
theorem Shape.relink {next next' : δ → Option δ} {x : ConcurrentObserver δ} {p : InsertPoint δ}
    (h : Shape next x p queue pend taken)
    (hlinked : ∀ l : List δ, l <:+: taken.toList ++ queue ++ p.begun pend →
      (l.IsChain fun x y => next x = some y) → l.IsChain fun x y => next' x = some y) :
    Shape next' x p queue pend taken := by
  cases h with
  | inserting hremoving hfits => exact .inserting hremoving (hfits.relink hlinked)
  | removing hremoving hstill hfits =>
    refine .removing hremoving hstill (hfits.relink ?_)
    rw [← hstill.begun_eq pend]
    exact hlinked

omit [DecidableEq α] [DecidableEq δ] in
/-- Only the list of the observer matters and who removes from it. -/
theorem Shape.congr {next : δ → Option δ} {x x' : ConcurrentObserver δ} {p : InsertPoint δ}
    (h : Shape next x p queue pend taken) (hlist : x'.list = x.list)
    (hremoving : x'.removing = x.removing) : Shape next x' p queue pend taken := by
  cases h with
  | inserting hnil hfits => exact .inserting (hremoving.trans hnil) (hlist ▸ hfits)
  | removing hone hstill hfits =>
    exact .removing (hremoving.trans hone) hstill (hlist ▸ hfits)

omit [DecidableEq α] [DecidableEq δ] in
/-- As long as the insertion has not begun it does not matter of what it will be. -/
theorem Shape.of_empty {next : δ → Option δ} {x : ConcurrentObserver δ} {pend' : Option δ}
    (h : Shape next x .empty queue pend taken) : Shape next x .empty queue pend' taken := by
  cases h with
  | inserting hremoving hfits => exact .inserting hremoving hfits
  | removing hremoving hstill hfits => exact .removing hremoving hstill hfits

omit [DecidableEq δ] in
/-- A step that does not concern an observer leaves it its list, if it leaves the parts of all
    sequences linked. -/
theorem Holds.frame {s' : ConcurrentObserved α δ} (h : s.Holds o taken queue pend)
    (hobserver : s'.observer o = s.observer o) (hobservation : s'.observation = s.observation)
    (hnotified : s'.notified = s.notified) (hexpected : s'.expected o = s.expected o)
    (hreturned : s'.returned o = s.returned o) (hrequested : s'.requested o = s.requested o)
    (hleft : ∀ d, o ∈ s'.left d ↔ o ∈ s.left d)
    (hprogress : s'.progress o pend = s.progress o pend)
    (hlinked : ∀ (c : Int) (l : List δ), l <:+: s.under c →
      (l.IsChain fun x y => s.next x = some y) → l.IsChain fun x y => s'.next x = some y) :
    s'.Holds o taken queue pend := by
  have hunder (c : Int) : s'.under c = s.under c := by
    unfold under
    rw [hnotified]
  obtain ⟨c, hpart⟩ := h.part
  refine ⟨?_, ?_, fun d => (hleft d).trans (h.left d), ⟨c, ?_⟩, fun c' hc' => ?_, ?_, ?_⟩
  · rw [hobserver, hprogress]
    exact h.shape.relink fun l hl => hlinked c l (hl.trans hpart)
  · rw [hexpected, hreturned]
    exact h.expected
  · -- the chain of pending data is part of what was notified under the same condition
    rw [hprogress, hunder]
    exact hpart
  · rw [hunder]
    exact h.attached c' (hobservation ▸ hc')
  · rw [hexpected, hnotified]
    exact h.sublist
  · rw [hobserver, hreturned, hrequested]
    exact h.balance

/-! ## Attachments -/

omit [DecidableEq α] in
/-- An observer is attached for one condition. -/
theorem condition_unique {σ : Observation α} (h : σ.Listed .conditional)
    (hc : (o, c) ∈ σ.attached) (hc' : (o, c') ∈ σ.attached) : c = c' := by
  obtain ⟨q, l, -, -, hperm⟩ := h
  obtain ⟨x, -, heq⟩ := List.mem_map.mp (hperm.mem_iff.mp hc)
  obtain ⟨y, -, heq'⟩ := List.mem_map.mp (hperm.mem_iff.mp hc')
  obtain ⟨rfl, rfl⟩ := Prod.mk.inj heq
  obtain ⟨rfl, rfl⟩ := Prod.mk.inj heq'
  rfl

omit [DecidableEq δ] in
/-- The loops of the notifications have ended. -/
theorem Inv.left_eq_nil (h : s.Inv) (hleft : ∀ n ∈ s.notified, s.left n.2 = []) (d : δ) :
    s.left d = [] := by
  by_contra hne
  obtain ⟨o, ho⟩ := List.exists_mem_of_ne_nil _ hne
  obtain ⟨c, -, hlast⟩ := h.left d o ho
  have hmem := mem_under.mp (List.mem_of_getLast? hlast)
  exact hne (hleft _ hmem)

omit [DecidableEq δ] in
/-- A list with data that no insertion is going on in is not empty, whatever a removal has done,
    and ends with the last of them. -/
theorem Holds.tail (h : s.Holds o taken queue none) (hne : queue ≠ []) :
    (s.observer o).list.size ≠ 0 ∧ (s.observer o).list.tail = queue.getLast? := by
  cases h.shape with
  | inserting hremoving hfits =>
    have hl : queue.PartOf s.next (s.observer o).list := hfits
    refine ⟨?_, hl.tail⟩
    have hpos := List.length_pos_iff.mpr hne
    rw [hl.size]
    omega
  | removing hremoving hstill hfits =>
    have hqueue : queue ++ InsertPoint.landed none (s.progress o none) = queue :=
      List.append_nil queue
    rw [hqueue] at hfits
    exact hfits.tail hne

omit [DecidableEq δ] in
/-- Other attachments do not matter to an observer whose own are of the sequence that ends with
    its list. -/
theorem Inv.setObservation (h : s.Inv) (hleft : ∀ n ∈ s.notified, s.left n.2 = [])
    {σ : Observation α} (hlisted : σ.Listed .conditional)
    (hattached : ∀ o c, (o, c) ∈ σ.attached → (o, c) ∈ s.observation.attached ∨
      (s.observer o).list.size = 0 ∨ (s.observer o).list.tail = s.last c) :
    Inv { s with observation := σ } := by
  have hnil := h.left_eq_nil hleft
  refine ⟨h.alive, hlisted, h.distinct, fun d o ho => ?_, h.nodup, h.point, fun o => ?_⟩
  · rw [show s.left d = [] from hnil d] at ho
    cases ho
  · obtain ⟨taken, queue, pend, ho⟩ := h.observers o
    have hpend : pend = none := by
      cases pend with
      | none => rfl
      | some d =>
        have hmem := (ho.left d).mpr rfl
        rw [hnil d] at hmem
        cases hmem
    subst hpend
    refine ⟨taken, queue, none, ho.shape, ho.expected, ho.left, ho.part, ?_, ho.sublist,
      ho.balance⟩
    intro c hc
    rw [Option.toList_none, List.append_nil]
    by_cases hne : queue = []
    · rw [hne]
      exact List.nil_suffix
    cases hattached o c hc with
    | inl hold =>
      have hsuffix := ho.attached c hold
      rwa [Option.toList_none, List.append_nil] at hsuffix
    | inr hor =>
      obtain ⟨hsize, htail⟩ := ho.tail hne
      have hlast : queue.getLast? = (s.under c).getLast? :=
        htail.symm.trans (hor.resolve_left hsize)
      -- The last datum of the list is of one sequence only.
      obtain ⟨c', hpart⟩ := ho.part
      have hqueue : queue <:+: s.under c' := by
        refine List.IsInfix.trans ?_ hpart
        exact (List.suffix_append ..).isInfix.trans (List.prefix_append ..).isInfix
      obtain ⟨d, hd⟩ := Option.isSome_iff_exists.mp (List.getLast?_isSome.mpr hne)
      have hmem' : d ∈ s.under c' := hqueue.subset (List.mem_of_getLast? hd)
      have hmem : d ∈ s.under c := List.mem_of_getLast? (hlast.symm.trans hd)
      obtain rfl := under_unique h.distinct hmem hmem'
      exact hqueue.isSuffix_of_getLast? (nodup_under h.distinct c) hlast hne

/-- Who is attached has data of the sequence of its condition, up to the last one. -/
theorem Inv.attach (h : s.Inv) (hact : s.CanAct (.attach o c)) (hord : s.Orderly (.attach o c)) :
    (s.step (.attach o c)).Inv := by
  refine h.setObservation hact.1 (h.listed.attach hact.2 c) fun x e hx => ?_
  cases List.mem_insert_iff.mp hx with
  | inl heq =>
    obtain ⟨rfl, rfl⟩ := Prod.mk.inj heq
    exact .inr hord
  | inr hx => exact .inl hx

/-- Who is detached keeps its list. -/
theorem Inv.detach (h : s.Inv) (hact : s.CanAct (.detach o c)) : (s.step (.detach o c)).Inv :=
  h.setObservation hact.1 (h.listed.detach hact.2) fun _ _ hx => .inl (List.mem_of_mem_erase hx)

/-! ## Notifications -/

omit [DecidableEq α] [DecidableEq δ] in
/-- A datum comes to the end of the sequence of its condition. -/
theorem under_notify {s' : ConcurrentObserved α δ} (h : s'.notified = s.notified ++ [(c, d)])
    (c' : Int) : s'.under c' = s.under c' ++ if c = c' then [d] else [] := by
  unfold under
  rw [h, List.filter_append, List.map_append]
  by_cases heq : c = c'
  · have hnew : [(c, d)].filter (fun n => n.1 = c') = [(c, d)] :=
      List.filter_cons_of_pos (decide_eq_true heq)
    rw [if_pos heq, hnew]
    rfl
  · have hnew : [(c, d)].filter (fun n => n.1 = c') = [] :=
      List.filter_cons_of_neg (by simpa using heq)
    rw [if_neg heq, hnew]
    rfl

/-- The observers of the condition wait for the datum, which is in no list yet. -/
theorem Inv.notify (h : s.Inv) (hd : d ∉ s.notified.map Prod.snd)
    (hord : s.Orderly (.notify c d)) : (s.notify c d).Inv := by
  obtain ⟨l, hl, hnd, hmem⟩ := h.listed.exact.notify c
  have hmem' (o : α) : o ∈ l ↔ (o, c) ∈ s.observation.attached := hmem o
  unfold ConcurrentObserved.notify
  rw [hl]
  let s' : ConcurrentObserved α δ :=
    { s with
      left := Function.update s.left d l
      notified := s.notified ++ [(c, d)]
      expected := fun o =>
        if (o, c) ∈ s.observation.attached then s.expected o ++ [d] else s.expected o }
  show s'.Inv
  have hself : s'.left d = l := Function.update_self ..
  have hothers {d' : δ} (hne : d' ≠ d) : s'.left d' = s.left d' := Function.update_of_ne hne ..
  have hunder (c' : Int) : s'.under c' = s.under c' ++ if c = c' then [d] else [] :=
    under_notify rfl c'
  have hother {c' : Int} (hne : c ≠ c') : s'.under c' = s.under c' := by
    rw [hunder, if_neg hne, List.append_nil]
  -- Nobody waits for the new datum yet, and who is notified waits for no other.
  have hfresh : s.left d = [] := by
    rw [List.eq_nil_iff_forall_not_mem]
    intro o ho
    obtain ⟨c', -, hlast⟩ := h.left d o ho
    exact hd (List.mem_map.mpr ⟨_, mem_under.mp (List.mem_of_getLast? hlast), rfl⟩)
  have hidle {o : α} (ho : (o, c) ∈ s.observation.attached) (d' : δ) : o ∉ s.left d' := by
    intro hleft
    obtain ⟨c', hc', hlast⟩ := h.left d' o hleft
    obtain rfl := condition_unique h.listed ho hc'
    have hnil := hord _ (mem_under.mp (List.mem_of_getLast? hlast)) rfl
    rw [hnil] at hleft
    cases hleft
  have hdistinct : (s'.notified.map Prod.snd).Nodup := by
    show ((s.notified ++ [(c, d)]).map Prod.snd).Nodup
    rw [List.map_append]
    refine List.nodup_append.mpr ⟨h.distinct, List.nodup_singleton d, fun x hx y hy heq => ?_⟩
    obtain rfl := List.mem_singleton.mp hy
    exact hd (heq ▸ hx)
  refine ⟨h.alive, h.listed, hdistinct, fun d' o ho => ?_, fun d' => ?_, fun d' hd' => ?_,
    fun o => ?_⟩
  · by_cases heq : d' = d
    · subst heq
      rw [hself] at ho
      refine ⟨c, (hmem' o).mp ho, ?_⟩
      rw [hunder, if_pos rfl, List.getLast?_concat]
    · rw [hothers heq] at ho
      obtain ⟨c', hc', hlast⟩ := h.left d' o ho
      have hne : c ≠ c' := fun heq => hidle (heq ▸ hc') d' ho
      exact ⟨c', hc', by rw [hother hne, hlast]⟩
  · by_cases heq : d' = d
    · subst heq
      rw [hself]
      exact hnd
    · rw [hothers heq]
      exact h.nodup d'
  · by_cases heq : d' = d
    · subst heq
      exact h.point d' hfresh
    · exact h.point d' ((hothers heq).symm.trans hd')
  · -- The sequence of `c` got longer, and so did what is expected of its observers.
    obtain ⟨taken, queue, pend, ho⟩ := h.observers o
    have hlonger {l : List δ} (hpart : ∃ c', l <:+: s.under c') : ∃ c', l <:+: s'.under c' := by
      obtain ⟨c', hpart⟩ := hpart
      refine ⟨c', hpart.trans ?_⟩
      rw [hunder]
      exact (List.prefix_append _ _).isInfix
    have hnotified : s'.notified.map Prod.snd = s.notified.map Prod.snd ++ [d] := List.map_append
    by_cases hattached : (o, c) ∈ s.observation.attached
    · have hpend : pend = none := by
        cases pend with
        | none => rfl
        | some d' => exact absurd ((ho.left d').mpr rfl) (hidle hattached d')
      subst hpend
      have hexpected : s'.expected o = s.expected o ++ [d] := if_pos hattached
      have hprogress : s'.progress o (some d) = .empty := by
        have hpoint : s'.point d = .empty := h.point d hfresh
        rw [progress_some, hpoint]
        exact ite_self _
      refine ⟨taken, queue, some d, ?_, ?_, fun d' => ?_, ?_, fun c' hc' => ?_, ?_, ho.balance⟩
      · rw [hprogress]
        exact ho.shape.of_empty
      · rw [hexpected, ho.expected, Option.toList_none, List.append_nil]
        rfl
      · by_cases heq : d' = d
        · subst heq
          rw [hself]
          exact iff_of_true ((hmem' o).mpr hattached) rfl
        · rw [hothers heq]
          exact iff_of_false (hidle hattached d') fun hsome => heq (Option.some.inj hsome).symm
      · rw [hprogress]
        exact hlonger ho.part
      · obtain rfl := condition_unique h.listed hattached hc'
        obtain ⟨front, hfront⟩ := ho.attached c hattached
        rw [Option.toList_none, List.append_nil] at hfront
        refine ⟨front, ?_⟩
        rw [hunder, if_pos rfl, ← hfront, List.append_assoc]
        rfl
      · rw [hexpected, hnotified]
        exact ho.sublist.append (List.Sublist.refl _)
    · have hexpected : s'.expected o = s.expected o := if_neg hattached
      have hne {d' : δ} (hd' : pend = some d') : d' ≠ d := by
        intro heq
        have hleft := (ho.left d').mpr hd'
        rw [heq, hfresh] at hleft
        cases hleft
      have hprogress : s'.progress o pend = s.progress o pend := by
        cases pend with
        | none => rfl
        | some d' =>
          rw [progress_some, progress_some, hothers (hne rfl)]
      refine ⟨taken, queue, pend, ?_, ?_, fun d' => ?_, ?_, fun c' hc' => ?_, ?_, ho.balance⟩
      · rw [hprogress]
        exact ho.shape
      · rw [hexpected]
        exact ho.expected
      · by_cases heq : d' = d
        · subst heq
          rw [hself]
          exact iff_of_false (fun hol => hattached ((hmem' o).mp hol)) fun hpend => hne hpend rfl
        · rw [hothers heq]
          exact ho.left d'
      · rw [hprogress]
        exact hlonger ho.part
      · have hne : c ≠ c' := fun heq => hattached (heq ▸ hc')
        rw [hother hne]
        exact ho.attached c' hc'
      · rw [hexpected, hnotified]
        exact ho.sublist.trans (List.sublist_append_left _ _)

/-! ## Updates -/

omit [DecidableEq α] [DecidableEq δ] in
/-- A list is part of the sequence of a condition or apart from it. -/
theorem part_or_apart {l : List δ} (h : (s.notified.map Prod.snd).Nodup)
    (hpart : l <:+: s.under c') (c : Int) : l <:+: s.under c ∨ ∀ x ∈ l, x ∉ s.under c := by
  by_cases hc : c = c'
  · exact .inl (hc ▸ hpart)
  · exact .inr fun x hx hmem => hc (under_unique h hmem (hpart.subset hx))

omit [DecidableEq δ] in
/-- An insertion that has begun and not ended is the only operation on the list. -/
theorem Holds.inserting (h : s.Holds o taken queue pend)
    (hpoint : ¬(s.progress o pend).Still ∨ (s.observer o).removing = []) :
    taken = none ∧ (s.observer o).removing = [] ∧
      (s.progress o pend).Fits s.next (s.observer o).list queue pend := by
  cases h.shape with
  | inserting hremoving hfits => exact ⟨rfl, hremoving, hfits⟩
  | removing hremoving hstill hfits =>
    cases hpoint with
    | inl hnot => exact absurd hstill hnot
    | inr hnil =>
      rw [hremoving] at hnil
      cases hnil

/-- An access of `insert()` writes links that are right for all lists. -/
theorem Inv.insert {left : List α} (h : s.Inv) (hord : s.Orderly (.update d))
    (hleft : s.left d = o :: left) (hpoint : s.point d ≠ .v) :
    ∃ p q, (s.point d).step d ⟨s.next, (s.observer o).list⟩ = some (p, q) ∧
      Inv { s with
        next := q.next
        observer := Function.update s.observer o { s.observer o with list := q.header }
        point := Function.update s.point d p } := by
  have hhead : (s.left d).head? = some o := by rw [hleft, List.head?_cons]
  obtain ⟨c, hattached, -⟩ := h.left d o (hleft ▸ List.mem_cons_self)
  obtain ⟨taken, queue, pend, ho⟩ := h.observers o
  obtain rfl : pend = some d := (ho.left d).mp (hleft ▸ List.mem_cons_self)
  have hprogress : s.progress o (some d) = s.point d := by rw [progress_some, if_pos hhead]
  -- No removal is under way, since none was when the insertion began.
  have honly : ¬(s.progress o (some d)).Still ∨ (s.observer o).removing = [] := by
    by_cases hempty : s.point d = .empty
    · exact .inr (hord hempty o hhead)
    · rw [hprogress]
      exact .inl fun hstill => hstill.elim hempty hpoint
  obtain ⟨rfl, hremoving, hfits⟩ := ho.inserting honly
  have hsuffix : queue ++ [d] <:+ s.under c := ho.attached c hattached
  rw [hprogress] at hfits
  obtain ⟨p, q, hstep, hfits', hlinked⟩ :=
    hfits.step (nodup_under h.distinct c) hsuffix hpoint
  refine ⟨p, q, hstep, ?_⟩
  let s' : ConcurrentObserved α δ :=
    { s with
      next := q.next
      observer := Function.update s.observer o { s.observer o with list := q.header }
      point := Function.update s.point d p }
  show s'.Inv
  refine ⟨h.alive, h.listed, h.distinct, h.left, h.nodup, fun d' hd' => ?_, fun y => ?_⟩
  · have hne : d' ≠ d := by
      intro heq
      rw [show s'.left d' = s.left d' from rfl, heq, hleft] at hd'
      cases hd'
    exact (Function.update_of_ne hne ..).trans (h.point d' hd')
  · by_cases hy : y = o
    · subst hy
      have hobserver : s'.observer y = { s.observer y with list := q.header } :=
        Function.update_self ..
      have hprogress' : s'.progress y (some d) = p :=
        (if_pos hhead).trans (Function.update_self ..)
      refine ⟨none, queue, some d, ?_, ho.expected, ho.left, ⟨c, ?_⟩, ho.attached, ho.sublist, ?_⟩
      · rw [hobserver, hprogress']
        exact .inserting hremoving hfits'
      · -- What is in the list, with or without the new datum, is at the end of the sequence.
        rw [hprogress']
        cases p with
        | empty =>
          show queue ++ [] <:+: s.under c
          rw [List.append_nil]
          exact (List.prefix_append queue [d]).isInfix.trans hsuffix.isInfix
        | _ => exact hsuffix.isInfix
      · rw [hobserver]
        exact ⟨ho.balance.value, ho.balance.passed, ho.balance.sleeping⟩
    · obtain ⟨taken', queue', pend', hy'⟩ := h.observers y
      have hprogress' : s'.progress y pend' = s.progress y pend' := by
        cases pend' with
        | none => rfl
        | some d' =>
          rw [progress_some, progress_some]
          by_cases hd' : d' = d
          · -- The loop has not come to this observer yet.
            subst hd'
            have hne : (s.left d').head? ≠ some y := by
              rw [hhead]
              exact fun heq => hy (Option.some.inj heq).symm
            exact (if_neg hne).trans (if_neg hne).symm
          · rw [show s'.point d' = s.point d' from Function.update_of_ne hd' ..]
      exact ⟨taken', queue', pend', hy'.frame (Function.update_of_ne hy ..) rfl rfl rfl rfl rfl
        (fun _ => Iff.rfl) hprogress' fun c' l hl => hlinked l (part_or_apart h.distinct hl c)⟩

/-- With the unit the observer has got the datum. -/
theorem Inv.signal {left : List α} (h : s.Inv) (hleft : s.left d = o :: left)
    (hpoint : s.point d = .v) : (s.signal d o left).Inv := by
  have hhead : (s.left d).head? = some o := by rw [hleft, List.head?_cons]
  obtain ⟨c, hattached, -⟩ := h.left d o (hleft ▸ List.mem_cons_self)
  obtain ⟨taken, queue, pend, ho⟩ := h.observers o
  obtain rfl : pend = some d := (ho.left d).mp (hleft ▸ List.mem_cons_self)
  have hprogress : s.progress o (some d) = .v := by rw [progress_some, if_pos hhead, hpoint]
  have hnotRest : o ∉ left := (List.nodup_cons.mp (hleft ▸ h.nodup d)).1
  have hself : (s.signal d o left).left d = left := Function.update_self ..
  have hothers {d' : δ} (hne : d' ≠ d) : (s.signal d o left).left d' = s.left d' :=
    Function.update_of_ne hne ..
  refine ⟨h.alive, h.listed, h.distinct, fun d' y hy => ?_, fun d' => ?_, fun d' hd' => ?_,
    fun y => ?_⟩
  · by_cases heq : d' = d
    · subst heq
      rw [hself] at hy
      exact h.left d' y (hleft ▸ List.mem_cons_of_mem _ hy)
    · rw [hothers heq] at hy
      exact h.left d' y hy
  · by_cases heq : d' = d
    · subst heq
      rw [hself]
      exact (List.nodup_cons.mp (hleft ▸ h.nodup d')).2
    · rw [hothers heq]
      exact h.nodup d'
  · by_cases heq : d' = d
    · subst heq
      exact Function.update_self ..
    · exact (Function.update_of_ne heq ..).trans (h.point d' ((hothers heq).symm.trans hd'))
  · by_cases hy : y = o
    · -- What the observer still had to get is part of what it has now.
      subst hy
      have hobserver : (s.signal d y left).observer y = (s.observer y).v := Function.update_self ..
      refine ⟨taken, queue ++ [d], none, ?_, ?_, fun d' => ?_, ?_, fun c' hc' => ?_, ho.sublist, ?_⟩
      · have hshape := ho.shape
        rw [hprogress] at hshape
        rw [hobserver]
        obtain ⟨hlist, hremoving⟩ := ConcurrentObserver.list_v (x := s.observer y)
        cases hshape with
        | inserting hnil hfits =>
          refine .inserting (hremoving.trans hnil) ?_
          rw [hlist]
          exact hfits
        | removing hone hstill hfits =>
          refine .removing (hremoving.trans hone) (.inl rfl) ?_
          rw [hlist]
          show RemovePoint.Fits s.next _ _ (queue ++ [d] ++ []) _
          rw [List.append_nil]
          exact hfits
      · rw [Option.toList_none, List.append_nil, ← List.append_assoc]
        exact ho.expected
      · by_cases heq : d' = d
        · subst heq
          rw [hself]
          exact iff_of_false hnotRest (Option.some_ne_none d').symm
        · rw [hothers heq]
          refine iff_of_false (fun hmem' => ?_) (Option.some_ne_none d').symm
          exact heq (Option.some.inj ((ho.left d').mp hmem')).symm
      · obtain ⟨c', hpart⟩ := ho.part
        rw [hprogress] at hpart
        refine ⟨c', ?_⟩
        show taken.toList ++ (queue ++ [d]) ++ [] <:+: s.under c'
        rw [List.append_nil, ← List.append_assoc]
        exact hpart
      · obtain rfl := condition_unique h.listed hattached hc'
        rw [Option.toList_none, List.append_nil]
        exact ho.attached c hattached
      · rw [hobserver, List.length_append, ← Nat.add_assoc]
        exact ho.balance.v
    · obtain ⟨taken', queue', pend', hy'⟩ := h.observers y
      refine ⟨taken', queue', pend', hy'.frame (Function.update_of_ne hy ..) rfl rfl rfl rfl rfl
        (fun d' => ?_) ?_ fun _ _ _ hl => hl⟩
      · by_cases heq : d' = d
        · subst heq
          rw [hself, hleft, List.mem_cons, or_iff_right hy]
        · rw [hothers heq]
      · cases pend' with
        | none => rfl
        | some d' =>
          rw [progress_some, progress_some]
          by_cases heq : d' = d
          · -- The next observer is at the beginning of its update.
            subst heq
            have hne : (s.left d').head? ≠ some y := by
              rw [hhead]
              exact fun heq => hy (Option.some.inj heq).symm
            have hempty : (s.signal d' o left).point d' = .empty := Function.update_self ..
            rw [if_neg hne, hempty]
            exact ite_self _
          · rw [hothers heq,
              show (s.signal d o left).point d' = s.point d' from Function.update_of_ne heq ..]

/-- A step of `update(c, d)`. -/
theorem Inv.update (h : s.Inv) (hord : s.Orderly (.update d)) : (s.update d).Inv := by
  unfold ConcurrentObserved.update
  cases hleft : s.left d with
  | nil => exact h
  | cons o left =>
    dsimp only
    by_cases hpoint : s.point d = .v
    · rw [if_pos hpoint]
      exact h.signal hleft hpoint
    · rw [if_neg hpoint]
      obtain ⟨p, q, hstep, hinv⟩ := h.insert hord hleft hpoint
      rw [hstep]
      exact hinv

/-! ## `updated()` -/

omit [DecidableEq δ] in
/-- A step of `updated()` concerns one observer. -/
theorem Inv.of_observer {s' : ConcurrentObserved α δ} (h : s.Inv)
    (hsame : s' = { s with
      observer := s'.observer, requested := s'.requested, returned := s'.returned })
    (hothers : ∀ y, y ≠ o → s'.observer y = s.observer y ∧ s'.requested y = s.requested y ∧
      s'.returned y = s.returned y)
    (ho : ∃ taken queue pend, s'.Holds o taken queue pend) : s'.Inv := by
  -- the shape is that of `s`; only what `o` holds is new
  refine ⟨?_, ?_, ?_, ?_, ?_, ?_, fun y => ?_⟩
  · rw [hsame]
    exact h.alive
  · rw [hsame]
    exact h.listed
  · rw [hsame]
    exact h.distinct
  · rw [hsame]
    exact h.left
  · rw [hsame]
    exact h.nodup
  · rw [hsame]
    exact h.point
  · by_cases heq : y = o
    · rw [heq]
      exact ho
    · obtain ⟨taken, queue, pend, hy⟩ := h.observers y
      obtain ⟨hobserver, hrequested, hreturned⟩ := hothers y heq
      have hleft (d : δ) : y ∈ s'.left d ↔ y ∈ s.left d := by rw [hsame]
      have hprogress : s'.progress y pend = s.progress y pend := by
        -- the links have not changed either
        rw [hsame]
        rfl
      have hlinked (c : Int) (l : List δ) (_ : l <:+: s.under c)
          (hl : l.IsChain fun x y => s.next x = some y) :
          l.IsChain fun x y => s'.next x = some y := by
        rw [hsame]
        exact hl
      exact ⟨taken, queue, pend, hy.frame hobserver (by rw [hsame]) (by rw [hsame]) (by rw [hsame])
        hreturned hrequested hleft hprogress hlinked⟩

omit [DecidableEq δ] in
/-- The semaphore lets as many calls pass as there are data with a unit. -/
theorem Inv.request (h : s.Inv) (o : α) : (s.request o).Inv := by
  obtain ⟨taken, queue, pend, ho⟩ := h.observers o
  have hobserver : (s.request o).observer o = (s.observer o).p := Function.update_self ..
  have hrequested : (s.request o).requested o = s.requested o + 1 := Function.update_self ..
  refine h.of_observer rfl (fun y hy => ?_) ⟨taken, queue, pend, ?_, ho.expected, ho.left, ho.part,
    ho.attached, ho.sublist, ?_⟩
  · exact ⟨Function.update_of_ne hy .., Function.update_of_ne hy .., rfl⟩
  · obtain ⟨hlist, hremoving⟩ := ConcurrentObserver.list_p (x := s.observer o)
    rw [hobserver]
    exact ho.shape.congr hlist hremoving
  · rw [hobserver, hrequested]
    exact ho.balance.p

omit [DecidableEq δ] in
/-- Who has passed the semaphore finds a datum. -/
theorem Inv.remove (h : s.Inv) (hpassed : 0 < (s.observer o).passed)
    (hord : s.Orderly (.remove o)) : (s.remove o).Inv := by
  obtain ⟨hnil, hstill⟩ := hord
  obtain ⟨taken, queue, pend, ho⟩ := h.observers o
  have hquiet : (s.progress o pend).Still := by
    cases pend with
    | none => exact .inl rfl
    | some d =>
      rw [progress_some]
      by_cases hhead : (s.left d).head? = some o
      · obtain ⟨c, -, hlast⟩ := h.left d o (List.mem_of_head? hhead)
        rw [if_pos hhead]
        exact hstill _ (mem_under.mp (List.mem_of_getLast? hlast)) hhead
      · rw [if_neg hhead]
        exact .inl rfl
  obtain ⟨rfl, -, hfits⟩ := ho.inserting (.inr hnil)
  cases queue with
  | nil =>
    -- No more calls have passed than there are data.
    have hcount := ho.balance.passed
    rw [Option.toList_none, List.length_nil] at hcount
    omega
  | cons d rest =>
    have hlist := hquiet.fits_iff.mp hfits
    have hempty : (SimpleList.mk s.next (s.observer o).list).empty = false :=
      SimpleList.empty_of_partOf hlist
    unfold ConcurrentObserved.remove
    rw [hempty, if_neg Bool.false_ne_true]
    let x : ConcurrentObserver δ :=
      { s.observer o with
        passed := (s.observer o).passed - 1
        removing := (s.observer o).removing ++ [.last] }
    let s' : ConcurrentObserved α δ := { s with observer := Function.update s.observer o x }
    show s'.Inv
    have hobserver : s'.observer o = x := Function.update_self ..
    have hremoving : x.removing = [.last] := congrArg (· ++ [.last]) hnil
    refine h.of_observer rfl (fun y hy => ⟨Function.update_of_ne hy .., rfl, rfl⟩)
      ⟨some d, rest, pend, ?_, ?_, ho.left, ho.part, fun c hc => ?_, ho.sublist, ?_⟩
    · rw [hobserver]
      exact .removing hremoving hquiet hlist
    · have hexpected := ho.expected
      rw [Option.toList_none, List.append_nil] at hexpected
      show s.expected o = s.returned o ++ [d] ++ rest ++ pend.toList
      rw [hexpected, List.append_assoc (s.returned o) [d]]
      rfl
    · exact (List.suffix_cons d _).trans (ho.attached c hc)
    · have hcalls : x.passed + x.removing.length + (s.returned o).length =
          (s.observer o).passed + (s.observer o).removing.length + (s.returned o).length := by
        have hone : x.passed = (s.observer o).passed - 1 := rfl
        rw [hone, hremoving, hnil, List.length_singleton, List.length_nil]
        omega
      have hbalance : x.Balanced _ _ _ := ho.balance.of_calls rfl rfl hcalls
      have hadded : (s.returned o).length + 1 + rest.length =
          (s.returned o).length + 0 + (d :: rest).length := by
        rw [List.length_cons]
        omega
      rw [hobserver]
      exact hadded ▸ hbalance

omit [DecidableEq δ] in
/-- The accesses of a removal follow the list to its second element, and the datum is returned. -/
theorem Inv.finish {i : Nat} (h : s.Inv) (hi : i < (s.observer o).removing.length) :
    (s.finish o i).Inv := by
  obtain ⟨taken, queue, pend, ho⟩ := h.observers o
  cases ho.shape with
  | inserting hremoving hfits =>
    rw [hremoving] at hi
    cases hi
  | @removing r d hremoving hstill hfits =>
    obtain rfl : i = 0 := by
      rw [hremoving, List.length_singleton] at hi
      omega
    unfold ConcurrentObserved.finish
    rw [hremoving]
    cases hfits.step with
    | inl hmore =>
      obtain ⟨r', header, hstep, hfits'⟩ := hmore
      simp only [List.getElem?_cons_zero, hstep, List.set_cons_zero]
      let x : ConcurrentObserver δ := { s.observer o with list := header, removing := [r'] }
      let s' : ConcurrentObserved α δ := { s with observer := Function.update s.observer o x }
      show s'.Inv
      have hobserver : s'.observer o = x := Function.update_self ..
      refine h.of_observer rfl (fun y hy => ⟨Function.update_of_ne hy .., rfl, rfl⟩)
        ⟨some d, queue, pend, ?_, ho.expected, ho.left, ho.part, ho.attached, ho.sublist, ?_⟩
      · rw [hobserver]
        exact .removing rfl hstill hfits'
      · rw [hobserver]
        refine ho.balance.of_calls rfl rfl ?_
        rw [hremoving]
        rfl
    | inr hdone =>
      obtain ⟨header, hstep, hl⟩ := hdone
      simp only [List.getElem?_cons_zero, hstep, List.eraseIdx_cons_zero]
      let x : ConcurrentObserver δ := { s.observer o with list := header, removing := [] }
      let s' : ConcurrentObserved α δ :=
        { s with
          observer := Function.update s.observer o x
          returned := Function.update s.returned o (s.returned o ++ [d]) }
      show s'.Inv
      have hobserver : s'.observer o = x := Function.update_self ..
      have hreturned : s'.returned o = s.returned o ++ [d] := Function.update_self ..
      refine h.of_observer rfl (fun y hy => ⟨Function.update_of_ne hy .., rfl,
        Function.update_of_ne hy ..⟩) ⟨none, queue, pend, ?_, ?_, ho.left, ?_, ho.attached,
          ho.sublist, ?_⟩
      · -- The list is at rest, or an insertion has ended behind the removal.
        rw [hobserver]
        exact .inserting rfl (hstill.fits_iff.mpr hl)
      · rw [hreturned, Option.toList_none, List.append_nil]
        exact ho.expected
      · obtain ⟨c, hpart⟩ := ho.part
        rw [Option.toList_some, List.append_assoc] at hpart
        exact ⟨c, (List.suffix_append ..).isInfix.trans hpart⟩
      · rw [hobserver, hreturned, List.length_append, Option.toList_none, List.length_nil]
        refine ho.balance.of_calls rfl rfl ?_
        rw [hremoving, List.length_singleton, List.length_singleton]
        show (s.observer o).passed + 0 + ((s.returned o).length + 1) = _
        omega

/-! ## Runs -/

/-- Nothing has been notified, and the lists are empty. -/
theorem inv_init (h : (concurrentObservation α δ).Init s) : s.Inv := by
  obtain ⟨⟨⟨next, rank, hq⟩, hattached⟩, hobserver, hleft, halive, hnotified, hlogs⟩ := h
  have hlisted : s.observation.Listed .conditional := by
    refine ⟨_, [], hq, ⟨rfl, rfl, rfl, trivial⟩, ?_⟩
    rw [hattached]
    exact .refl _
  -- nothing was notified yet and nobody is attached
  refine ⟨halive, hlisted, ?_, fun d o ho => ?_, fun d => ?_, fun d _ => (hleft d).2, fun o => ?_⟩
  · rw [hnotified]
    exact .nil
  · rw [(hleft d).1] at ho
    cases ho
  · rw [(hleft d).1]
    exact .nil
  · obtain ⟨hexpected, hrequested, hreturned⟩ := hlogs o
    refine ⟨none, [], none, ?_, ?_, fun d => ?_, ⟨0, List.nil_infix⟩, fun c _ => List.nil_suffix,
      ?_, ?_⟩
    · rw [hobserver]
      exact .inserting rfl ⟨rfl, rfl, rfl, .nil⟩
    · rw [hexpected, hreturned]
      rfl
    · rw [(hleft d).1]
      exact iff_of_false List.not_mem_nil (Option.some_ne_none d).symm
    · rw [hexpected]
      exact List.nil_sublist _
    · rw [hobserver, hreturned, hrequested]
      exact ⟨rfl, rfl, rfl⟩

/-- Every orderly step keeps the invariant. -/
theorem Inv.step {a : ConcurrentAction α δ} (h : s.Inv) (hact : s.CanAct a) (hord : s.Orderly a) :
    (s.step a).Inv := by
  cases a with
  | attach o c => exact h.attach hact hord
  | detach o c => exact h.detach hact
  | notify c d => exact h.notify hact hord
  | update d => exact h.update hord
  | request o => exact h.request o
  | remove o => exact h.remove hact hord
  | finish o i => exact h.finish hact

instance (s : ConcurrentObserved α δ) (a : ConcurrentAction α δ) :
    Decidable ((concurrentObservation α δ).Enabled s a) :=
  match a with
  | .attach o _ =>
    inferInstanceAs (Decidable ((∀ n ∈ s.notified, s.left n.2 = []) ∧
      o ∉ s.observation.attached.map Prod.fst))
  | .detach o c =>
    inferInstanceAs (Decidable ((∀ n ∈ s.notified, s.left n.2 = []) ∧
      (o, c) ∈ s.observation.attached))
  | .notify _ d => inferInstanceAs (Decidable (d ∉ s.notified.map Prod.snd))
  | .update d => inferInstanceAs (Decidable (s.left d ≠ []))
  | .request _ => inferInstanceAs (Decidable True)
  | .remove o => inferInstanceAs (Decidable (0 < (s.observer o).passed))
  | .finish o i => inferInstanceAs (Decidable (i < (s.observer o).removing.length))

instance (p : InsertPoint δ) : Decidable p.Still := inferInstanceAs (Decidable (_ ∨ _))

instance (s : ConcurrentObserved α δ) (a : ConcurrentAction α δ) : Decidable (s.Orderly a) :=
  match a with
  | .attach o c => inferInstanceAs (Decidable (_ ∨ (s.observer o).list.tail = s.last c))
  | .detach _ _ => inferInstanceAs (Decidable True)
  | .notify c _ =>
    inferInstanceAs (Decidable (∀ n ∈ s.notified, n.1 = c → s.left n.2 = []))
  | .update d =>
    inferInstanceAs (Decidable (s.point d = .empty →
      ∀ o ∈ (s.left d).head?, (s.observer o).removing = []))
  | .request _ => inferInstanceAs (Decidable True)
  | .remove o =>
    inferInstanceAs (Decidable ((s.observer o).removing = [] ∧
      ∀ n ∈ s.notified, (s.left n.2).head? = some o → (s.point n.2).Still))
  | .finish _ _ => inferInstanceAs (Decidable True)

end ConcurrentObserved

open ConcurrentObserved

/-- In every interleaving the observers receive what they are attached for, as long as
    notifications of a condition do not overlap, no observer is attached with a list that is not
    the end of the sequence of its condition, and no call of `insert()` or `remove()` begins in the
    middle of another one on the same list. -/
theorem concurrent_observers_receive {α δ : Type*} [DecidableEq α] [DecidableEq δ]
    {s : ConcurrentObserved α δ} {as : List (ConcurrentAction α δ)}
    (hinit : (concurrentObservation α δ).Init s) (hvalid : (concurrentObservation α δ).Valid s as)
    (hmeets : (concurrentObservation α δ).Meets Orderly s as) :
    (concurrentObservation α δ).Always Delivers s as := by
  have hinv : (concurrentObservation α δ).Always Inv s as :=
    hmeets.always (fun s a h hact hord => h.step hact hord) (inv_init hinit) hvalid
  exact hinv.imp fun s h => h.delivers

/-- No observers yet, and nothing notified. -/
def unnotified : ConcurrentObserved Nat Nat where
  observation := unobserved
  next := fun _ => none
  observer := fun _ => {}
  left := fun _ => []
  point := fun _ => .empty
  expected := fun _ => []
  requested := fun _ => 0
  returned := fun _ => []

theorem unnotified_init : (concurrentObservation Nat Nat).Init unnotified :=
  ⟨⟨⟨_, _, rfl⟩, rfl⟩, fun _ => rfl, fun _ => ⟨rfl, rfl⟩, rfl, rfl, fun _ => ⟨rfl, rfl, rfl⟩⟩

/-- `n` accesses of the updates of `notify(c, d)`. -/
def updates (n d : Nat) : List (ConcurrentAction Nat Nat) := List.replicate n (.update d)

/-- `n` accesses of a call of `updated()` that is alone in the list. -/
def finishes (n o : Nat) : List (ConcurrentAction Nat Nat) := List.replicate n (.finish o 0)

/-- Two observers of one condition and one of another. Observer 1 removes datum 10 while it is
    inserted for observer 2 and datum 20 for observer 3. Observer 2 begins to remove it between the
    insertion of datum 11 and the unit for that, when observer 1 is removing datum 11. -/
theorem concurrent_observers_receive_example :
    (concurrentObservation Nat Nat).Always Delivers unnotified
      ([.attach 1 7, .attach 2 7, .attach 3 5, .request 1, .notify 7 10] ++ updates 7 10 ++
        [.notify 5 20, .remove 1] ++ finishes 2 1 ++ updates 3 10 ++ updates 2 20 ++
        finishes 4 1 ++ updates 4 10 ++ updates 5 20 ++ [.notify 7 11] ++ updates 7 11 ++
        [.request 1, .remove 1] ++ updates 7 11 ++ [.request 2, .remove 2] ++ finishes 3 2 ++
        finishes 6 1 ++ updates 1 11 ++ finishes 4 2) :=
  concurrent_observers_receive unnotified_init (by decide +kernel) (by decide +kernel)

/-- A second notification of the condition begins when the first one has updated observer 1,
    and ends before it goes on. Then the link of datum 10 is cut in the list of observer 1, whose
    second `updated()` follows a null pointer. -/
theorem not_concurrent_observers_receive :
    ¬∀ (s : ConcurrentObserved Nat Nat) (as : List (ConcurrentAction Nat Nat)),
      (concurrentObservation Nat Nat).Init s → (concurrentObservation Nat Nat).Valid s as →
        (concurrentObservation Nat Nat).Always Delivers s as := by
  intro h
  have halive := (h unnotified
    ([.attach 1 7, .attach 2 7, .notify 7 10] ++ updates 7 10 ++ [.notify 7 11] ++ updates 15 11 ++
      updates 8 10 ++ [.request 1, .remove 1] ++ finishes 7 1 ++ [.request 1, .remove 1] ++
      finishes 6 1) unnotified_init (by decide +kernel)).last.alive
  exact absurd halive (by decide +kernel)

/-- One observer, and notifications that do not overlap: the only datum is being removed, between
    `e = _head` and `_head = 0`, when the next one is inserted, which is lost. -/
example : ((concurrentObservation Nat Nat).run unnotified
    ([.attach 1 7, .notify 7 10] ++ updates 7 10 ++ [.request 1, .remove 1] ++ finishes 2 1 ++
      [.notify 7 11] ++ updates 8 11 ++ finishes 4 1 ++ [.request 1, .remove 1] ++
      finishes 6 1)).failed = true := by decide +kernel

/-- So it is when an observer is attached again with a datum in its list that is not the last
    one. -/
example : ((concurrentObservation Nat Nat).run unnotified
    ([.attach 1 7, .attach 2 7, .notify 7 10] ++ updates 14 10 ++ [.detach 2 7, .notify 7 11] ++
      updates 8 11 ++ [.attach 2 7, .notify 7 12] ++ updates 16 12 ++ [.request 1, .remove 1] ++
      finishes 7 1 ++ [.request 1, .remove 1] ++ finishes 7 1 ++ [.request 1, .remove 1] ++
      finishes 6 1)).failed = true := by decide +kernel

end Epos
