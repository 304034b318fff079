import Epos.ForStd.TransitionSystem
import Epos.Kernel.Alarm
import Epos.Spec.RelativeListCorrect

/-!
# When alarms are due

The ranks in the alarm queue add up to the time that is left, so that no handler is
called early, as long as `period()` finds in the link of the alarm the rank that it
would have to write there.
-/

namespace Epos

variable {α : Type*} [DecidableEq α]

/-! ## The queue -/

namespace RelativeList

variable {q q' : RelativeList α} {absolute absolute' : α → Int} {armed l l' : List α} {a x : α}

/-- The list holds the armed alarms in the order of the absolute ranks. -/
structure Queued (q : RelativeList α) (absolute : α → Int) (armed l : List α) : Prop where
  keeps : q.Keeps absolute l
  order : List.StableSortOf absolute armed l

/-- Removing an alarm keeps its rank. -/
theorem rank_remove (heq : q.remove a = some q') (hnext : q.links.next a ≠ some a) :
    q'.rank a = q.rank a := by
  unfold RelativeList.remove at heq
  obtain ⟨L, hL, heq⟩ := Option.bind_eq_some_iff.mp heq
  cases heq
  show giveBack L.links.next q.rank a a = q.rank a
  unfold giveBack
  rw [LinkedList.remove_next hL]
  cases hx : q.links.next a with
  | none => rfl
  | some x =>
    rw [hx, ne_eq, Option.some.injEq] at hnext
    exact Function.update_of_ne (Ne.symm hnext) _ _

/-- Removing takes the alarm, wherever it is, off the queue. -/
theorem Queued.removeObjectWithin {fuel : Nat} (h : q.Queued absolute armed l) (a : α)
    (hfuel : l.length ≤ fuel) :
    ∃ q', q.removeObjectWithin fuel a = some q' ∧
      q'.Queued absolute (armed.erase a) (l.erase a) ∧ q'.rank a = q.rank a := by
  have hchained := h.keeps.represents.linked.chained
  have hhead : q.header.head = l.head? := h.keeps.represents.head
  unfold RelativeList.removeObjectWithin
  rw [hhead, LinkedList.findFrom_eq hchained hfuel, List.find?_eq_ite_mem]
  by_cases ha : a ∈ l
  · simp only [if_pos ha, Option.bind_eq_bind, Option.bind_some]
    obtain ⟨q', heq, hq'⟩ := h.keeps.remove ha
    exact ⟨q', heq, ⟨hq', h.order.erase a⟩, rank_remove heq (hchained.next_ne ha)⟩
  · simp only [if_neg ha, Option.bind_eq_bind, Option.bind_some]
    refine ⟨q, rfl, ?_, rfl⟩
    rwa [List.erase_of_not_mem ha, List.erase_of_not_mem (mt (h.order.mem_iff a).mpr ha)]

/-- `remove()` takes the alarm, wherever it is, off the queue. -/
theorem Queued.removeObject (h : q.Queued absolute armed l) (a : α) :
    ∃ q', q.removeObject a = some q' ∧ q'.Queued absolute (armed.erase a) (l.erase a) ∧
      q'.rank a = q.rank a :=
  h.removeObjectWithin a h.keeps.represents.length_le_scanFuel

omit [DecidableEq α] in
/-- Only the times of the queued alarms matter. -/
theorem Queued.congr_absolute (h : q.Queued absolute armed l)
    (habs : ∀ x ∈ armed, absolute' x = absolute x) : q.Queued absolute' armed l := by
  refine ⟨⟨h.keeps.represents, h.keeps.sums.congr (fun _ _ => rfl) fun x hx => ?_⟩, ?_⟩
  · exact habs x ((h.order.mem_iff x).mp hx)
  · exact h.order.congr fun x hx y hy => by rw [habs x hx, habs y hy]

/-- `insert()` puts the alarm where its time belongs. -/
theorem Queued.insert (absolute' : α → Int) (h : q.Queued absolute armed l) (ha : a ∉ armed)
    (hrank : ∀ x ∈ armed, absolute' x = absolute x) (hself : q.rank a = absolute' a) :
    ∃ q', q.insert a = some q' ∧
      q'.Queued absolute' (armed ++ [a]) (l.insertRank absolute' a) := by
  have hkeeps := (h.congr_absolute hrank).keeps
  obtain ⟨q', heq, hq'⟩ := hkeeps.insert (mt (h.order.mem_iff a).mp ha) hself
  exact ⟨q', heq, hq', h.order.insert ha hrank⟩

omit [DecidableEq α] in
/-- The link of an alarm that is not queued is written. -/
theorem Queued.congr {L : Links α} {rank : α → Int} (h : q.Queued absolute armed l)
    (ha : a ∉ armed) (hoff : q.links.EqOff L [a]) (hrank : ∀ x, x ≠ a → rank x = q.rank x) :
    Queued { links := L, header := q.header, rank := rank } absolute armed l := by
  have hne (x : α) (hx : x ∈ l) : x ≠ a := ne_of_mem_of_not_mem hx (mt (h.order.mem_iff a).mp ha)
  refine ⟨⟨h.keeps.represents.congr hoff fun x hx => ?_, ?_⟩, h.order⟩
  · simpa using hne x hx
  · exact h.keeps.sums.congr (fun x hx => hrank x (hne x hx)) fun _ _ => rfl

/-- The rank of an alarm outside of the queue may change. -/
theorem Queued.setRank (h : q.Queued absolute armed l) (ha : a ∉ armed) (r : Int) :
    Queued { q with rank := Function.update q.rank a r } absolute armed l :=
  h.congr ha (.refl _ _) fun _ hx => Function.update_of_ne hx _ _

/-- A tick brings every alarm nearer. -/
theorem Queued.promoteHead (h : q.Queued absolute armed l) (hl : l ≠ []) {n : Int}
    (habs : ∀ x, absolute' x = absolute x - n) :
    ∃ q', q.promoteHead n = some q' ∧ q'.Queued absolute' armed l := by
  obtain ⟨q', heq, hq'⟩ := h.keeps.promoteHead hl fun x _ => habs x
  refine ⟨q', heq, hq', h.order.congr fun x _ y _ => ?_⟩
  rw [habs x, habs y]
  omega

/-- The head leaves the queue. -/
theorem Queued.removeHead (h : q.Queued absolute armed (x :: l)) :
    ∃ q', q.removeHead = some (some x, q') ∧ q'.Queued absolute (armed.erase x) l := by
  obtain ⟨q', heq, hq'⟩ := h.keeps.removeHead
  have herase := h.order.erase x
  rw [List.erase_cons_head] at herase
  exact ⟨q', heq, hq', herase⟩

omit [DecidableEq α] in
/-- An empty queue agrees with any times. -/
theorem Queued.of_nil (h : q.Queued absolute armed []) : q.Queued absolute' armed [] := by
  refine ⟨⟨h.keeps.represents, trivial⟩, ?_⟩
  rw [h.order.eq_nil_iff.mp rfl]
  exact .nil _

omit [DecidableEq α] in
/-- The ranks in the queue determine the absolute ones. -/
theorem Queued.unique (h : q.Queued absolute armed l) (h' : q.Queued absolute' armed l')
    (ha : a ∈ armed) : absolute a = absolute' a := by
  obtain rfl := h.keeps.represents.headedBy.unique h'.keeps.represents.headedBy
  exact h.keeps.sums.unique h'.keeps.sums ((h.order.mem_iff a).mpr ha)

end RelativeList

/-! ## Runs -/

inductive AlarmAction (α : Type*) where
  | construct (a : α) (time times : Nat)
  | destroy (a : α)
  | reset (a : α)
  | period (a : α) (p : Nat)
  | tick
  deriving DecidableEq, Repr

namespace Alarms

variable {σ : Alarms α} {a : α} {t : Int}

def step (ticks : Nat → Int) (σ : Alarms α) : AlarmAction α → Alarms α
  | .construct a time times => σ.construct ticks a time times
  | .destroy a => σ.destroy a
  | .reset a => σ.reset a
  | .period a p => σ.period ticks a p
  | .tick => σ.handler

/-- Only an alarm that has been constructed and not destroyed is used. -/
def CanStep (σ : Alarms α) : AlarmAction α → Prop
  | .construct a _ _ => σ.alarm a = none
  | .destroy a | .reset a | .period a _ => σ.alarm a ≠ none
  | .tick => True

instance (σ : Alarms α) (x : AlarmAction α) : Decidable (σ.CanStep x) := by
  cases x <;> unfold CanStep <;> infer_instance

omit [DecidableEq α] in
def Idle (σ : Alarms α) : Prop :=
  (∃ L rank, σ.request = some { links := L, header := {}, rank := rank }) ∧
    (∀ a, σ.alarm a = none) ∧ σ.elapsed = 0 ∧ σ.armed = [] ∧ σ.fired = []

/-- The ranks up to an alarm add up to the ticks that are left, the queue is in the order
    of the due ticks and first come first served, and no handler was called early. -/
structure Timely (σ : Alarms α) (q : RelativeList α) (l : List α) : Prop where
  request : σ.request = some q
  represents : q.Represents l
  sums : ∀ as a bs, l = as ++ a :: bs →
    ((as ++ [a]).map q.rank).sum = σ.due a - σ.elapsed
  sorted : l.RankSorted σ.due
  fifo : ∀ d, l.filter (σ.due · = d) = σ.armed.filter (σ.due · = d)
  fired : ∀ f ∈ σ.fired, f.due ≤ f.elapsed

/-- `period(p)` finds the rank that `reset()` would write. -/
def FindsRank (ticks : Nat → Int) (σ : Alarms α) : AlarmAction α → Prop
  | .period a p => σ.request.map (·.rank a) = some (ticks p)
  | _ => True

end Alarms

/-- Alarms with a `Time_Base` of `w` bits and a timer with a period of `timerPeriod`
    microseconds. -/
def alarmSystem (α : Type*) [DecidableEq α] (w timerPeriod : Nat) :
    TransitionSystem (Alarms α) (AlarmAction α) where
  Init := Alarms.Idle
  Enabled := Alarms.CanStep
  next := Alarms.step (ticks w timerPeriod)

instance (w timerPeriod : Nat) (σ : Alarms α) (x : AlarmAction α) :
    Decidable ((alarmSystem α w timerPeriod).Enabled σ x) :=
  inferInstanceAs (Decidable (σ.CanStep x))

namespace Alarms

variable {σ : Alarms α} {a : α} {t : Int}

/-- The ticks that are left. -/
def left (σ : Alarms α) (a : α) : Int := σ.due a - σ.elapsed

/-- The queue is the one of the armed alarms, and no handler was called early. -/
structure Serves (σ : Alarms α) : Prop where
  queue : ∃ q l, σ.request = some q ∧ q.Queued σ.left σ.armed l
  fired : ∀ f ∈ σ.fired, f.due ≤ f.elapsed

/-- What holds even if the ranks are wrong. -/
structure Sound (σ : Alarms α) : Prop where
  nodup : σ.armed.Nodup
  constructed : ∀ a ∈ σ.armed, σ.alarm a ≠ none

omit [DecidableEq α] in
/-- A queue that serves is timely. -/
theorem Serves.timely (h : σ.Serves) : ∃ q l, σ.Timely q l := by
  obtain ⟨q, l, hq, hqueued⟩ := h.queue
  have horder : List.StableSortOf σ.due σ.armed l := by
    apply hqueued.order.congr
    intro x _ y _
    unfold left
    omega
  refine ⟨q, l, hq, hqueued.keeps.represents, fun as a bs hl => ?_, horder.sorted, horder.fifo,
    h.fired⟩
  rw [← zero_add (List.sum _)]
  exact List.prefixSums_iff.mp hqueued.keeps.sums as a bs hl

omit [DecidableEq α] in
/-- A timely queue serves. -/
theorem Serves.of_timely {q : RelativeList α} {l : List α} (h : σ.Timely q l)
    (hs : σ.Sound) : σ.Serves := by
  have horder : List.StableSortOf σ.due σ.armed l := ⟨h.sorted, hs.nodup, h.fifo⟩
  refine ⟨⟨q, l, h.request, ⟨h.represents, List.prefixSums_iff.mpr fun as a bs hl => ?_⟩, ?_⟩,
    h.fired⟩
  · rw [zero_add]
    exact h.sums as a bs hl
  · apply horder.congr
    intro x _ y _
    unfold left
    omega

omit [DecidableEq α] in
/-- Both say the same. -/
theorem timely_iff_serves (hs : σ.Sound) : (∃ q l, σ.Timely q l) ↔ σ.Serves :=
  ⟨fun ⟨_, _, h⟩ => .of_timely h hs, Serves.timely⟩

/-! ### The parts of the operations -/

/-- The rank of the link of `a`. -/
def rank (σ : Alarms α) (a : α) : Option Int := σ.request.map (·.rank a)

/-- Removing keeps the queue serving, and the rank. -/
theorem Serves.remove (h : σ.Serves) (a : α) :
    (σ.remove a).Serves ∧ (σ.remove a).rank a = σ.rank a := by
  obtain ⟨q, l, hreq, hq⟩ := h.queue
  obtain ⟨q', heq, hq', hrank⟩ := hq.removeObject a
  have hreq' : (σ.remove a).request = some q' := by
    show σ.request.bind _ = _
    rw [hreq, Option.bind_some, heq]
  refine ⟨⟨⟨q', _, hreq', hq'⟩, h.fired⟩, ?_⟩
  unfold rank
  rw [hreq', hreq, Option.map_some, Option.map_some, hrank]

/-- Setting the rank of an alarm that is not queued keeps the queue serving. -/
theorem Serves.setRank (h : σ.Serves) (ha : a ∉ σ.armed) (r : Int) :
    (σ.setRank a r).Serves ∧ (σ.setRank a r).rank a = some r := by
  obtain ⟨q, l, hreq, hq⟩ := h.queue
  have hreq' : (σ.setRank a r).request = some { q with rank := Function.update q.rank a r } := by
    show σ.request.map _ = _
    rw [hreq, Option.map_some]
  refine ⟨⟨⟨_, l, hreq', hq.setRank ha r⟩, h.fired⟩, ?_⟩
  unfold rank
  rw [hreq', Option.map_some]
  exact congrArg some (Function.update_self a r q.rank)

/-- Linking an alarm that is not queued keeps the queue serving. -/
theorem Serves.link (h : σ.Serves) (ha : a ∉ σ.armed) (r : Int) :
    (σ.link a r).Serves ∧ (σ.link a r).rank a = some r := by
  obtain ⟨q, l, hreq, hq⟩ := h.queue
  have hoff : q.links.EqOff ((q.links.setPrev a none).setNext a none) [a] :=
    (Links.EqOff.setPrev (List.mem_singleton_self a)).trans
      (.setNext (List.mem_singleton_self a))
  have hreq' : (σ.link a r).request = some
      { q with
        links := (q.links.setPrev a none).setNext a none
        rank := Function.update q.rank a r } := by
    show σ.request.map _ = _
    rw [hreq, Option.map_some]
  refine ⟨⟨⟨_, l, hreq', hq.congr ha hoff fun x hx => Function.update_of_ne hx _ _⟩, h.fired⟩, ?_⟩
  unfold rank
  rw [hreq', Option.map_some]
  exact congrArg some (Function.update_self a r q.rank)

/-- A queue that is in step with the time stays so exactly if the new alarm has the rank
    that it should have. -/
theorem Serves.insert_iff (h : σ.Serves) (ha : a ∉ σ.armed) (t : Int) :
    (σ.insert a t).Serves ↔ σ.rank a = some t := by
  obtain ⟨q, l, hreq, hq⟩ := h.queue
  have hself : (σ.insert a t).left a = t := by
    show Function.update σ.due a (σ.elapsed + t) a - σ.elapsed = t
    rw [Function.update_self]
    omega
  have hother (x : α) (hx : x ∈ σ.armed) : (σ.insert a t).left x = σ.left x := by
    show Function.update σ.due a (σ.elapsed + t) x - σ.elapsed = σ.due x - σ.elapsed
    rw [Function.update_of_ne (ne_of_mem_of_not_mem hx ha)]
  have hreq' : (σ.insert a t).request = q.insert a := by
    show σ.request.bind _ = _
    rw [hreq, Option.bind_some]
  have hrank : σ.rank a = some (q.rank a) := by
    unfold rank
    rw [hreq, Option.map_some]
  rw [hrank, Option.some.injEq]
  constructor
  · intro h'
    obtain ⟨q', l', heq, hq'⟩ := h'.queue
    -- The queue has the rank of the link where it should have `t`.
    obtain ⟨q'', heq', hq''⟩ := hq.insert (Function.update σ.left a (q.rank a)) ha
      (fun x hx => Function.update_of_ne (ne_of_mem_of_not_mem hx ha) _ _)
      (Function.update_self a (q.rank a) σ.left).symm
    rw [hreq', heq', Option.some.injEq] at heq
    rw [← heq] at hq'
    have hunique := hq''.unique hq' (List.mem_append_right _ (List.mem_singleton_self a))
    rw [Function.update_self] at hunique
    exact hunique.trans hself
  · intro hrank
    obtain ⟨q', heq, hq'⟩ := hq.insert _ ha hother (hrank.trans hself.symm)
    exact ⟨⟨q', _, hreq'.trans heq, hq'⟩, h.fired⟩

/-- When such an alarm is due does not matter. -/
theorem Serves.setDue (h : σ.Serves) (ha : a ∉ σ.armed) (d : Int) :
    Serves { σ with due := Function.update σ.due a d } := by
  obtain ⟨q, l, hreq, hq⟩ := h.queue
  refine ⟨⟨q, l, hreq, hq.congr_absolute fun x hx => ?_⟩, h.fired⟩
  show Function.update σ.due a d x - σ.elapsed = σ.due x - σ.elapsed
  rw [Function.update_of_ne (ne_of_mem_of_not_mem hx ha)]

omit [DecidableEq α] in
/-- An alarm fires when it is due. -/
theorem Serves.fire (h : σ.Serves) (hdue : σ.due a ≤ σ.elapsed) : (σ.fire a).Serves := by
  refine ⟨h.queue, fun f hf => ?_⟩
  cases List.mem_cons.mp hf with
  | inl heq =>
    rw [heq]
    exact hdue
  | inr hf => exact h.fired f hf

/-- The object of an alarm does not matter. -/
theorem Serves.setAlarm (h : σ.Serves) (a : α) (alarm : Option Alarm) :
    (σ.setAlarm a alarm).Serves :=
  ⟨h.queue, h.fired⟩

/-- A removed alarm is not armed. -/
theorem Sound.not_mem_remove (h : σ.Sound) (a : α) : a ∉ (σ.remove a).armed :=
  h.nodup.not_mem_erase

/-- Removing keeps the alarms sound. -/
theorem Sound.remove (h : σ.Sound) (a : α) : (σ.remove a).Sound :=
  ⟨h.nodup.erase a, fun x hx => h.constructed x (List.mem_of_mem_erase hx)⟩

/-- Setting a rank keeps the alarms sound. -/
theorem Sound.setRank (h : σ.Sound) (a : α) (r : Int) : (σ.setRank a r).Sound :=
  ⟨h.nodup, h.constructed⟩

/-- Linking keeps the alarms sound. -/
theorem Sound.link (h : σ.Sound) (a : α) (r : Int) : (σ.link a r).Sound :=
  ⟨h.nodup, h.constructed⟩

/-- Inserting an alarm that exists and is not armed keeps the alarms sound. -/
theorem Sound.insert (h : σ.Sound) (ha : a ∉ σ.armed) (halarm : σ.alarm a ≠ none) (t : Int) :
    (σ.insert a t).Sound := by
  have hnd : (σ.armed ++ [a]).Nodup := by
    rw [List.nodup_append_comm]
    exact List.nodup_cons.mpr ⟨ha, h.nodup⟩
  refine ⟨hnd, fun x hx => ?_⟩
  cases List.mem_append.mp hx with
  | inl hx => exact h.constructed x hx
  | inr hx => exact List.mem_singleton.mp hx ▸ halarm

/-- Alarms that are not armed may be destroyed. -/
theorem Sound.setAlarm (h : σ.Sound) (a : α) (alarm : Option Alarm) (ha : a ∈ σ.armed → alarm ≠ none) :
    (σ.setAlarm a alarm).Sound := by
  refine ⟨h.nodup, fun x hx => ?_⟩
  show Function.update σ.alarm a alarm x ≠ none
  by_cases hxa : x = a
  · rw [hxa, Function.update_self]
    exact ha (hxa ▸ hx)
  · rw [Function.update_of_ne hxa]
    exact h.constructed x hx

/-- The object that has been set. -/
theorem setAlarm_alarm (σ : Alarms α) (a : α) (alarm : Option Alarm) :
    (σ.setAlarm a alarm).alarm a = alarm :=
  Function.update_self _ _ _

/-! ### The operations -/

variable {ticks : Nat → Int}

/-- A new alarm keeps the queue serving. -/
theorem Serves.construct (h : σ.Serves) (hs : σ.Sound) (ha : σ.alarm a = none)
    (time times : Nat) : (σ.construct ticks a time times).Serves := by
  have hna : a ∉ σ.armed := fun hmem => hs.constructed a hmem ha
  have hset := h.setAlarm a (some { time, times := times % 2 ^ 32, ticks := ticks time })
  obtain ⟨hlink, hrank⟩ := hset.link hna (ticks time)
  unfold Alarms.construct
  simp only
  split
  · exact (hlink.insert_iff hna _).mpr hrank
  · rename_i ht
    apply Serves.fire (hlink.setDue hna _)
    show Function.update σ.due a (σ.elapsed + ticks time) a ≤ σ.elapsed
    rw [Function.update_self, not_not.mp ht, add_zero]

/-- The destructor keeps the queue serving. -/
theorem Serves.destroy (h : σ.Serves) (a : α) : (σ.destroy a).Serves :=
  (h.remove a).1.setAlarm a none

/-- `reset()` keeps the queue serving. -/
theorem Serves.reset (h : σ.Serves) (hs : σ.Sound) (a : α) : (σ.reset a).Serves := by
  unfold Alarms.reset
  cases σ.alarm a with
  | none => exact h
  | some alarm =>
    have hna := hs.not_mem_remove a
    obtain ⟨hset, hrank⟩ := (h.remove a).1.setRank hna alarm.ticks
    exact (hset.insert_iff hna _).mpr hrank

/-- `period()` does so exactly if it finds the rank that it sets. -/
theorem Serves.period_iff (h : σ.Serves) (hs : σ.Sound) (ha : σ.alarm a ≠ none) (p : Nat) :
    (σ.period ticks a p).Serves ↔ σ.rank a = some (ticks p) := by
  obtain ⟨alarm, ha⟩ := Option.ne_none_iff_exists'.mp ha
  obtain ⟨hremove, hrank⟩ := h.remove a
  have hset := hremove.setAlarm a (some { alarm with time := p, ticks := ticks p })
  unfold Alarms.period
  simp only [ha]
  rw [hset.insert_iff (hs.not_mem_remove a), ← hrank]
  rfl

/-- An alarm that expires keeps the queue serving. -/
theorem Serves.expire (h : σ.Serves) (hna : a ∉ σ.armed) (ha : σ.alarm a ≠ none)
    (hdue : σ.due a ≤ σ.elapsed) : (σ.expire a).Serves := by
  obtain ⟨alarm, ha⟩ := Option.ne_none_iff_exists'.mp ha
  have hfire := (h.fire hdue).setAlarm a (some { alarm with times := decrement alarm.times })
  unfold Alarms.expire
  simp only [ha]
  split
  · obtain ⟨hset, hrank⟩ := hfire.setRank hna alarm.ticks
    exact (hset.insert_iff hna _).mpr hrank
  · exact hfire

/-- The handler keeps the queue serving. -/
theorem Serves.handler (h : σ.Serves) (hs : σ.Sound) : σ.handler.Serves := by
  obtain ⟨q, l, hreq, hq⟩ := h.queue
  -- every alarm is one tick nearer
  have hleft (x : α) : Alarms.left { σ with elapsed := σ.elapsed + 1 } x = σ.left x - 1 := by
    show σ.due x - (σ.elapsed + 1) = σ.due x - σ.elapsed - 1
    omega
  unfold Alarms.handler
  simp only [hreq, hq.keeps.represents.empty_eq]
  cases l with
  | nil => exact ⟨⟨q, [], rfl, hq.of_nil⟩, h.fired⟩
  | cons x xs =>
    have hhead : q.header.head = some x := hq.keeps.represents.head
    obtain ⟨q', heq, hq'⟩ := hq.promoteHead (by simp) hleft
    have hx : x ∈ σ.armed := (hq.order.mem_iff x).mp List.mem_cons_self
    have hrank : σ.due x - (σ.elapsed + 1) = 0 + q'.rank x := hq'.keeps.sums.1
    simp only [List.isEmpty_cons, Bool.false_eq_true, if_false, heq, hhead]
    split
    · -- the head is due, and is served
      obtain ⟨q'', heq', hq''⟩ := hq'.removeHead
      have htaken : Serves { σ with
          request := some q'', elapsed := σ.elapsed + 1, armed := σ.armed.erase x } :=
        ⟨⟨q'', xs, rfl, hq''⟩, h.fired⟩
      simp only [heq']
      apply htaken.expire hs.nodup.not_mem_erase (hs.constructed x hx)
      show σ.due x ≤ σ.elapsed + 1
      omega
    · -- the head is not due yet
      exact ⟨⟨q', _, rfl, hq'⟩, h.fired⟩

/-! ### Steps -/

/-- An alarm that expires keeps the alarms sound. -/
theorem Sound.expire (h : σ.Sound) (hna : a ∉ σ.armed) : (σ.expire a).Sound := by
  unfold Alarms.expire
  cases σ.alarm a with
  | none => exact ⟨h.nodup, h.constructed⟩
  | some alarm =>
    have hset := Sound.setAlarm (σ := σ.fire a) ⟨h.nodup, h.constructed⟩ a
      (some { alarm with times := decrement alarm.times })
      fun _ => by simp
    simp only
    split
    · apply (hset.setRank a alarm.ticks).insert hna
      show (Alarms.setAlarm _ a _).alarm a ≠ none
      rw [setAlarm_alarm]
      simp
    · exact hset

/-- Every step keeps the alarms sound. -/
theorem Sound.step (h : σ.Sound) (x : AlarmAction α) (hx : σ.CanStep x) :
    (σ.step ticks x).Sound := by
  cases x with
  | construct a time times =>
    have hna : a ∉ σ.armed := fun hmem => h.constructed a hmem hx
    have hset := h.setAlarm a
      (some { time, times := times % 2 ^ 32, ticks := ticks time }) fun _ => by simp
    simp only [Alarms.step, Alarms.construct]
    split
    · apply (hset.link a (ticks time)).insert hna
      show (Alarms.setAlarm _ a _).alarm a ≠ none
      rw [setAlarm_alarm]
      simp
    · exact ⟨hset.nodup, hset.constructed⟩
  | destroy a => exact (h.remove a).setAlarm a none fun hmem => absurd hmem (h.not_mem_remove a)
  | reset a =>
    obtain ⟨alarm, ha⟩ := Option.ne_none_iff_exists'.mp hx
    simp only [Alarms.step, Alarms.reset, ha]
    exact ((h.remove a).setRank a alarm.ticks).insert (h.not_mem_remove a) hx alarm.ticks
  | period a p =>
    obtain ⟨alarm, ha⟩ := Option.ne_none_iff_exists'.mp hx
    have hset := (h.remove a).setAlarm a
      (some { alarm with time := p, ticks := ticks p }) fun _ => by simp
    simp only [Alarms.step, Alarms.period, ha]
    apply hset.insert (h.not_mem_remove a)
    rw [setAlarm_alarm]
    simp
  | tick =>
    -- Only a tick at which the head is due takes an alarm out.
    simp only [Alarms.step, Alarms.handler]
    split
    · exact ⟨h.nodup, h.constructed⟩
    · split
      · exact ⟨h.nodup, h.constructed⟩
      · split
        · split
          · split
            · apply Sound.expire _ h.nodup.not_mem_erase
              exact ⟨h.nodup.erase _, fun x hx => h.constructed x (List.mem_of_mem_erase hx)⟩
            · exact ⟨h.nodup, h.constructed⟩
          · exact ⟨h.nodup, h.constructed⟩
        · exact ⟨h.nodup, h.constructed⟩

/-- A step keeps the queue serving exactly if `period()` finds its rank. -/
theorem Serves.step_iff (h : σ.Serves) (hs : σ.Sound) (x : AlarmAction α) (hx : σ.CanStep x) :
    (σ.step ticks x).Serves ↔ σ.FindsRank ticks x := by
  cases x with
  | construct a time times => exact iff_of_true (h.construct hs hx time times) trivial
  | destroy a => exact iff_of_true (h.destroy a) trivial
  | reset a => exact iff_of_true (h.reset hs a) trivial
  | period a p => exact h.period_iff hs hx p
  | tick => exact iff_of_true (h.handler hs) trivial

omit [DecidableEq α] in
/-- Without alarms the queue serves. -/
theorem Idle.serves (h : σ.Idle) : σ.Serves ∧ σ.Sound := by
  obtain ⟨⟨L, rank, hreq⟩, -, -, harmed, hfired⟩ := h
  refine ⟨⟨⟨_, [], hreq, ⟨⟨rfl, rfl, rfl, trivial⟩, trivial⟩, ?_⟩, ?_⟩, ?_, ?_⟩
  · rw [harmed]
    exact .nil _
  · simp [hfired]
  · rw [harmed]
    exact .nil
  · simp [harmed]

end Alarms

/-- The queue stays in step with the time exactly as long as each `period(p)` finds in the
    link the ticks of `p`. -/
theorem alarms_timely_iff (w timerPeriod : Nat) (σ : Alarms α) (as : List (AlarmAction α))
    (hinit : (alarmSystem α w timerPeriod).Init σ)
    (hv : (alarmSystem α w timerPeriod).Valid σ as) :
    (alarmSystem α w timerPeriod).Always (fun σ => ∃ q l, σ.Timely q l) σ as ↔
      (alarmSystem α w timerPeriod).Meets (Alarms.FindsRank (ticks w timerPeriod)) σ as := by
  obtain ⟨hserves, hsound⟩ := hinit.serves
  apply TransitionSystem.always_iff_meets (I := Alarms.Sound) _ _ hsound hserves.timely hv
  · exact fun σ x hs hx => hs.step x hx
  · intro σ x hs hP hx
    have hs' : Alarms.Sound ((alarmSystem α w timerPeriod).next σ x) := hs.step x hx
    rw [Alarms.timely_iff_serves hs']
    exact ((Alarms.timely_iff_serves hs).mp hP).step_iff hs x hx

/-- No alarm has been constructed. -/
def noAlarms : Alarms Nat where
  request := some { links := ⟨fun _ => none, fun _ => none⟩, header := {}, rank := fun _ => 0 }
  alarm := fun _ => none
  elapsed := 0
  due := fun _ => 0

/-- Two alarms, a tick, a reset and a new period. -/
theorem alarms_timely_example :
    (alarmSystem Nat 32 1000).Always (fun σ => ∃ q l, σ.Timely q l) noAlarms
      [.construct 1 3000 2, .construct 2 1000 1, .tick, .reset 1, .period 1 3000] ↔
    (alarmSystem Nat 32 1000).Meets (Alarms.FindsRank (ticks 32 1000)) noAlarms
      [.construct 1 3000 2, .construct 2 1000 1, .tick, .reset 1, .period 1 3000] :=
  alarms_timely_iff 32 1000 noAlarms _ ⟨⟨_, _, rfl⟩, fun _ => rfl, rfl, rfl, rfl⟩ (by decide)

/-- An alarm of two ticks gets a period of ten and goes off after two. -/
theorem period_keeps_rank :
    ¬∀ as, (alarmSystem Nat 32 1000).Valid noAlarms as →
      (alarmSystem Nat 32 1000).Always (fun σ => ∃ q l, σ.Timely q l) noAlarms as := by
  intro h
  have hrun := h [.construct 1 2000 1, .period 1 10000, .tick, .tick] (by decide)
  obtain ⟨q, l, hq⟩ := hrun.last
  have hlate := hq.fired { alarm := 1, due := 10, elapsed := 2 } (by decide)
  exact absurd hlate (by decide)

end Epos
