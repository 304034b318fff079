import Epos.Kernel.Observer
import Epos.Spec.SimpleListCorrect

/-!
# Who is notified

The observers that are notified are the attached ones and `observers()` is their number,
exactly as long as only attached observers are detached and only others attached:
neither `attach()` nor `detach()` looks whether the link is in the list.
-/

namespace Epos

namespace ObservedClass

variable {α : Type*} {k : ObservedClass} {q q' : SimpleOrderedList α} {l : List α} {o : α}
  {c : Int}

theorem visit_eq {next : α → Option α} {fuel : Nat} (h : l.Chained next none)
    (hfuel : l.length ≤ fuel) : visit next fuel l.head? = some l := by
  induction l generalizing fuel with
  | nil => simp [visit]
  | cons x xs ih =>
    obtain ⟨n, rfl⟩ := Nat.exists_eq_succ_of_ne_zero (Nat.ne_of_gt (Nat.zero_lt_of_lt hfuel))
    have hnext : next x = xs.head? := by rw [h.1, Option.or_none]
    rw [List.head?_cons, visit, hnext, ih h.2 (Nat.le_of_succ_le_succ hfuel), Option.map_some]

/-- The condition that an observer of the list is registered under. -/
def conditionOf (k : ObservedClass) (q : SimpleOrderedList α) (o : α) : Int :=
  k.condition (q.rank o)

theorem notify_eq (h : q.Represents l) (c : Int) :
    k.notify q c = some (l.filter fun o => k.conditionOf q o = k.condition c) := by
  have hhead : q.header.head = l.head? := h.head
  have hvisit := visit_eq h.chained h.length_le_findFuel
  unfold notify notifyWithin
  rw [hhead, hvisit]
  cases k with
  | conditional => rfl
  | _ => simp [conditionOf, condition]

variable [DecidableEq α]

theorem attach_represents (h : q.Represents l) (ho : o ∉ l) (c : Int) :
    ∃ q' l', k.attach q o c = some q' ∧ q'.Represents l' ∧ l'.Perm (o :: l) ∧
      k.conditionOf q' o = k.condition c ∧ ∀ x ∈ l, k.conditionOf q' x = k.conditionOf q x := by
  -- The link of `o` may be written.
  have hlink : SimpleList.Represents { q with next := Function.update q.next o none } l :=
    ⟨h.size, h.head, h.tail, h.chained.congr fun x hx =>
      Function.update_of_ne (ne_of_mem_of_not_mem hx ho) _ _⟩
  cases k with
  | observed =>
    obtain ⟨L, hins, hL⟩ := h.insertTail ho
    refine ⟨{ q with toSimpleList := L }, _, ?_, hL, List.perm_append_singleton o l, rfl, fun _ _ => rfl⟩
    show (q.insertTail o).map _ = _
    rw [hins]
    rfl
  | dataObserved =>
    obtain ⟨L, hins, hL⟩ := hlink.insertTail ho
    refine ⟨{ q with toSimpleList := L }, _, ?_, hL, List.perm_append_singleton o l, rfl, fun _ _ => rfl⟩
    show (SimpleList.insertTail _ o).map _ = _
    rw [hins]
    rfl
  | conditional =>
    obtain ⟨q', hins, hq', hrank⟩ := SimpleOrderedList.insert_absolute
      (q := { q with next := Function.update q.next o none, rank := Function.update q.rank o c })
      hlink ho
    refine ⟨q', _, hins, hq', List.perm_insertRank _ o l, ?_, fun x hx => ?_⟩
    · show q'.rank o = c
      rw [hrank]
      exact Function.update_self _ _ _
    · show q'.rank x = q.rank x
      rw [hrank]
      exact Function.update_of_ne (ne_of_mem_of_not_mem hx ho) _ _

/-- Attaching adds one to the size and registers the observer under the condition,
    whatever was there. -/
theorem attach_eq (heq : k.attach q o c = some q') :
    q'.header.size = q.header.size + 1 ∧ k.conditionOf q' o = k.condition c := by
  cases k with
  | observed =>
    obtain ⟨L, hL, rfl⟩ := Option.map_eq_some_iff.mp heq
    exact ⟨SimpleList.size_insertTail hL, rfl⟩
  | dataObserved =>
    obtain ⟨L, hL, rfl⟩ := Option.map_eq_some_iff.mp heq
    have hsize := SimpleList.size_insertTail hL
    exact ⟨hsize, rfl⟩
  | conditional =>
    obtain ⟨hrank, hsize⟩ := SimpleOrderedList.insert_eq heq
    refine ⟨hsize, ?_⟩
    show q'.rank o = c
    rw [hrank]
    exact Function.update_self _ _ _

omit [DecidableEq α] in
/-- Nobody is notified for a condition that his link does not have. -/
theorem conditionOf_of_notify {l : List α} (heq : k.notify q c = some l) (ho : o ∈ l) :
    k.conditionOf q o = k.condition c := by
  cases k with
  | conditional =>
    obtain ⟨l', -, rfl⟩ := Option.map_eq_some_iff.mp heq
    simpa [conditionOf, condition] using (List.mem_filter.mp ho).2
  | _ => rfl

end ObservedClass

namespace Observation

variable {α : Type*} [DecidableEq α] {k : ObservedClass} {σ : Observation α}

/-- For each condition exactly the attached observers are notified, each once, and
    `observers()` is the number of attachments. -/
structure Exact (k : ObservedClass) (σ : Observation α) : Prop where
  notify : ∀ c, ∃ l, σ.observers.bind (k.notify · c) = some l ∧ l.Nodup ∧
    ∀ o, o ∈ l ↔ (o, k.condition c) ∈ σ.attached
  observers : σ.observers.map (·.header.size) = some (σ.attached.length : Int)

/-- What is attached was not, and what is detached was attached. -/
def Matching (k : ObservedClass) (σ : Observation α) : ObserverAction α → Prop
  | .attach o _ => o ∉ σ.attached.map Prod.fst
  | .detach o c => (o, k.condition c) ∈ σ.attached

instance (σ : Observation α) (a : ObserverAction α) : Decidable (Matching k σ a) :=
  match a with
  | .attach o _ => inferInstanceAs (Decidable (o ∉ σ.attached.map Prod.fst))
  | .detach o c => inferInstanceAs (Decidable ((o, k.condition c) ∈ σ.attached))

omit [DecidableEq α] in
/-- The list is the one of the attached observers. -/
def Listed (k : ObservedClass) (σ : Observation α) : Prop :=
  ∃ q l, σ.observers = some q ∧ q.Represents l ∧
    σ.attached.Perm (l.map fun o => (o, k.conditionOf q o))

omit [DecidableEq α] in
theorem Listed.exact (h : σ.Listed k) : σ.Exact k := by
  obtain ⟨q, l, hq, hl, hperm⟩ := h
  constructor
  · intro c
    refine ⟨_, by rw [hq, Option.bind_some, ObservedClass.notify_eq hl], hl.nodup.filter _,
      fun o => ?_⟩
    rw [hperm.mem_iff]
    simp
  · rw [hq, Option.map_some, hperm.length_eq, List.length_map]
    exact congrArg some hl.size

theorem Listed.attach (h : σ.Listed k) {o : α} (ho : o ∉ σ.attached.map Prod.fst) (c : Int) :
    (σ.step k (.attach o c)).Listed k := by
  obtain ⟨q, l, hq, hl, hperm⟩ := h
  have hol : o ∉ l := by
    intro hmem
    apply ho
    rw [(hperm.map Prod.fst).mem_iff, List.map_map]
    exact List.mem_map.mpr ⟨o, hmem, rfl⟩
  obtain ⟨q', l', heq, hl', hperm', hself, hothers⟩ := ObservedClass.attach_represents (k := k)
    hl hol c
  refine ⟨q', l', ?_, hl', ?_⟩
  · show σ.observers.bind _ = _
    rw [hq, Option.bind_some, heq]
  · have hnew : (o, k.condition c) ∉ σ.attached := fun hmem =>
      ho (List.mem_map.mpr ⟨_, hmem, rfl⟩)
    have hmap : l.map (fun x => (x, k.conditionOf q' x)) =
        l.map fun x => (x, k.conditionOf q x) :=
      List.map_congr_left fun x hx => by rw [hothers x hx]
    show (σ.attached.insert _).Perm _
    rw [List.insert_of_not_mem hnew]
    refine ((hperm.cons _).trans ?_).trans (hperm'.map _).symm
    rw [List.map_cons, hself, hmap]

theorem Listed.detach (h : σ.Listed k) {o : α} {c : Int} (ho : (o, k.condition c) ∈ σ.attached) :
    (σ.step k (.detach o c)).Listed k := by
  obtain ⟨q, l, hq, hl, hperm⟩ := h
  obtain ⟨x, hx, heq⟩ := List.mem_map.mp (hperm.mem_iff.mp ho)
  obtain ⟨rfl, hcond⟩ := Prod.mk.inj heq
  obtain ⟨L, hremove, hL⟩ := hl.remove hx
  refine ⟨{ q with toSimpleList := L }, l.erase x, ?_, hL, ?_⟩
  · show σ.observers.bind _ = _
    rw [hq, Option.bind_some]
    show (q.toSimpleList.remove x).bind _ = _
    rw [hremove]
    rfl
  · have hinj : Function.Injective fun y => (y, k.conditionOf q y) := fun _ _ heq =>
      (Prod.mk.inj heq).1
    have herase := hperm.erase (x, k.condition c)
    rw [← hcond, ← List.map_erase hinj] at herase
    rw [hcond] at herase
    exact herase

/-- A step that does not match makes the size or a notification wrong. -/
theorem Listed.exact_step (h : σ.Listed k) (a : ObserverAction α) (hexact : (σ.step k a).Exact k) :
    σ.Matching k a := by
  have hsize := h.exact.observers
  obtain ⟨q, l, hq, hl, hperm⟩ := h
  obtain ⟨q', hq', hsize'⟩ := Option.map_eq_some_iff.mp hexact.observers
  rw [hq, Option.map_some, Option.some.injEq] at hsize
  by_contra hno
  cases a with
  | detach o c =>
    have hattached : (σ.step k (.detach o c)).attached = σ.attached := List.erase_of_not_mem hno
    have hdetach : q.detach o = some q' := by
      rw [← hq']
      show _ = σ.observers.bind _
      rw [hq, Option.bind_some]
    unfold SimpleOrderedList.detach SimpleOrderedList.remove at hdetach
    obtain ⟨L, hL, heq⟩ := Option.bind_eq_some_iff.mp hdetach
    cases heq
    have hless := SimpleList.size_remove hl hL
    rw [hattached] at hsize'
    simp only at hsize'
    omega
  | attach o c =>
    have hattach : k.attach q o c = some q' := by
      rw [← hq']
      show _ = σ.observers.bind _
      rw [hq, Option.bind_some]
    obtain ⟨hmore, hcond⟩ := ObservedClass.attach_eq hattach
    obtain ⟨⟨x, c'⟩, hmem, hx⟩ := List.mem_map.mp (not_not.mp hno)
    obtain rfl : x = o := hx
    have hmem' : (x, c') ∈ (σ.step k (.attach x c)).attached := List.mem_insert_of_mem hmem
    obtain ⟨y, -, heq⟩ := List.mem_map.mp (hperm.mem_iff.mp hmem)
    obtain ⟨rfl, hc'⟩ := Prod.mk.inj heq
    by_cases hc : c' = k.condition c
    · -- The same attachment is counted twice.
      have hattached : (σ.step k (.attach y c)).attached = σ.attached :=
        List.insert_of_mem (hc ▸ hmem)
      rw [hattached] at hsize'
      omega
    · -- The link has the new condition only.
      have hk : k.condition c' = c' := by
        rw [← hc']
        cases k <;> rfl
      obtain ⟨l', hl', -, hiff⟩ := hexact.notify c'
      rw [hq', Option.bind_some] at hl'
      have hnot := ObservedClass.conditionOf_of_notify hl' ((hiff y).mpr (by rwa [hk]))
      rw [hcond, hk] at hnot
      exact hc hnot.symm

end Observation

open Observation

/-- Notifications and `observers()` are right in all states of a run exactly if each of
    its steps attaches an observer that is not attached or detaches one that is. -/
theorem observation_exact_iff {α : Type*} [DecidableEq α] (k : ObservedClass)
    (σ : Observation α) (as : List (ObserverAction α)) (hinit : (observation α k).Init σ)
    (hv : (observation α k).Valid σ as) :
    (observation α k).Always (Exact k) σ as ↔ (observation α k).Meets (Matching k) σ as := by
  have hlisted : σ.Listed k := by
    obtain ⟨⟨next, rank, hq⟩, hattached⟩ := hinit
    refine ⟨_, [], hq, ⟨rfl, rfl, rfl, trivial⟩, ?_⟩
    rw [hattached]
    exact .refl _
  have hstep (σ : Observation α) (a : ObserverAction α) (h : σ.Listed k) (hm : σ.Matching k a) :
      (σ.step k a).Listed k := by
    cases a with
    | attach o c => exact h.attach hm c
    | detach o c => exact h.detach hm
  apply TransitionSystem.always_iff_meets_inv (I := Listed k) (fun _ h => h.exact) _ _ hlisted hv
  · exact fun σ a h _ hm => hstep σ a h hm
  · exact fun σ a h _ => ⟨h.exact_step a, fun hm => (hstep σ a h hm).exact⟩

/-- No observers yet. -/
def unobserved : Observation Nat where
  observers := some { next := fun _ => none, header := {}, rank := fun _ => 0 }

theorem observation_exact_example :
    (observation Nat .conditional).Always (Exact .conditional) unobserved
      [.attach 1 7, .attach 2 3, .attach 3 7, .detach 1 7, .attach 1 3] ↔
    (observation Nat .conditional).Meets (Matching .conditional) unobserved
      [.attach 1 7, .attach 2 3, .attach 3 7, .detach 1 7, .attach 1 3] :=
  observation_exact_iff .conditional unobserved _ ⟨⟨_, _, rfl⟩, rfl⟩ (by decide)

/-- A detach without an attach makes the size of an empty list wrap. -/
theorem detach_underflow :
    ¬∀ as, (observation Nat .conditional).Valid unobserved as →
      (observation Nat .conditional).Always (Exact .conditional) unobserved as := by
  intro h
  have hsize := (h [.detach 1 7] ⟨trivial, trivial⟩).last.observers
  exact absurd hsize (by decide)

end Epos
