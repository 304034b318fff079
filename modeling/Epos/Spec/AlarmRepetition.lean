import Epos.Spec.AlarmCorrect

/-!
# How often an alarm goes off

`_times` counts the calls of the handler that an alarm has left while it is in the queue,
whatever the ranks there are. The alarm leaves the queue with its last call, and `reset()`
and `period()` put it back with nothing left: the next call takes `_times` from zero to
`INFINITE`.
-/

namespace Epos

variable {α : Type*} [DecidableEq α]

namespace Alarms

variable {σ σ' : Alarms α} {a b : α} {ticks : Nat → Int}

/-! ## The queue, whatever its ranks -/

/-- The queue has the armed alarms. -/
def Stores (σ : Alarms α) : Prop :=
  ∃ q absolute l, σ.request = some q ∧ q.Queued absolute σ.armed l

/-- Removing keeps the alarms stored. -/
theorem Stores.remove (h : σ.Stores) (a : α) : (σ.remove a).Stores := by
  obtain ⟨q, absolute, l, hreq, hq⟩ := h
  obtain ⟨q', heq, hq', -⟩ := hq.removeObject a
  refine ⟨q', absolute, _, ?_, hq'⟩
  show σ.request.bind _ = _
  rw [hreq, Option.bind_some, heq]

/-- Setting the rank of an alarm that is not queued keeps the alarms stored. -/
theorem Stores.setRank (h : σ.Stores) (ha : a ∉ σ.armed) (r : Int) : (σ.setRank a r).Stores := by
  obtain ⟨q, absolute, l, hreq, hq⟩ := h
  refine ⟨_, absolute, l, ?_, hq.setRank ha r⟩
  show σ.request.map _ = _
  rw [hreq, Option.map_some]

/-- Linking an alarm that is not queued keeps the alarms stored. -/
theorem Stores.link (h : σ.Stores) (ha : a ∉ σ.armed) (r : Int) : (σ.link a r).Stores := by
  obtain ⟨q, absolute, l, hreq, hq⟩ := h
  have hoff : q.links.EqOff ((q.links.setPrev a none).setNext a none) [a] :=
    (Links.EqOff.setPrev (List.mem_singleton_self a)).trans
      (.setNext (List.mem_singleton_self a))
  have hrank (x : α) (hx : x ≠ a) : Function.update q.rank a r x = q.rank x :=
    Function.update_of_ne hx _ _
  refine ⟨_, absolute, l, ?_, hq.congr ha hoff hrank⟩
  show σ.request.map _ = _
  rw [hreq, Option.map_some]

/-- The rank that the link has is the one that the queue gives it. -/
theorem Stores.insert (h : σ.Stores) (ha : a ∉ σ.armed) (t : Int) : (σ.insert a t).Stores := by
  obtain ⟨q, absolute, l, hreq, hq⟩ := h
  obtain ⟨q', heq, hq'⟩ := hq.insert (Function.update absolute a (q.rank a)) ha
    (fun x hx => Function.update_of_ne (ne_of_mem_of_not_mem hx ha) _ _)
    (Function.update_self a (q.rank a) absolute).symm
  refine ⟨q', _, _, ?_, hq'⟩
  show σ.request.bind _ = _
  rw [hreq, Option.bind_some, heq]

omit [DecidableEq α] in
/-- Without alarms there is nothing to store. -/
theorem Idle.stores (h : σ.Idle) : σ.Stores := by
  obtain ⟨q, l, hreq, hq⟩ := h.serves.1.queue
  exact ⟨q, σ.left, l, hreq, hq⟩

/-! ## What the queue leaves alone -/

/-- The alarm is as it was, where it was, and its handler has not been called. -/
structure Untouched (σ σ' : Alarms α) (a : α) : Prop where
  alarm : σ'.alarm a = σ.alarm a
  armed : a ∈ σ'.armed ↔ a ∈ σ.armed
  fired : σ'.fired.countP (·.alarm = a) = σ.fired.countP (·.alarm = a)

namespace Untouched

theorem refl (σ : Alarms α) (a : α) : Untouched σ σ a := ⟨rfl, .rfl, rfl⟩

theorem trans {σ'' : Alarms α} (h : Untouched σ σ' a) (h' : Untouched σ' σ'' a) :
    Untouched σ σ'' a :=
  ⟨h'.alarm.trans h.alarm, h'.armed.trans h.armed, h'.fired.trans h.fired⟩

/-- Removing another alarm leaves this one alone. -/
theorem remove (hb : b ≠ a) : Untouched σ (σ.remove b) a :=
  ⟨rfl, List.mem_erase_of_ne hb.symm, rfl⟩

/-- Inserting another alarm leaves this one alone. -/
theorem insert (hb : b ≠ a) (t : Int) : Untouched σ (σ.insert b t) a := by
  refine ⟨rfl, ?_, rfl⟩
  show a ∈ σ.armed ++ [b] ↔ a ∈ σ.armed
  simp [hb.symm]

/-- Changing the object of another alarm leaves this one alone. -/
theorem setAlarm (hb : b ≠ a) (alarm : Option Alarm) : Untouched σ (σ.setAlarm b alarm) a :=
  ⟨Function.update_of_ne hb.symm _ _, .rfl, rfl⟩

/-- Setting a rank leaves the alarm alone. -/
theorem setRank (r : Int) : Untouched σ (σ.setRank b r) a := ⟨rfl, .rfl, rfl⟩

/-- Linking leaves the alarm alone. -/
theorem link (r : Int) : Untouched σ (σ.link b r) a := ⟨rfl, .rfl, rfl⟩

/-- When an alarm is due is no part of it. -/
theorem setDue (due : α → Int) : Untouched σ { σ with due := due } a := ⟨rfl, .rfl, rfl⟩

/-- The firing of another alarm leaves this one alone. -/
theorem fire (hb : b ≠ a) : Untouched σ (σ.fire b) a := by
  refine ⟨rfl, .rfl, ?_⟩
  show List.countP _ (_ :: σ.fired) = _
  rw [List.countP_cons_of_neg (by simpa using hb)]

/-- The constructor of another alarm leaves this one alone. -/
theorem construct (hb : b ≠ a) (time times : Nat) :
    Untouched σ (σ.construct ticks b time times) a := by
  have hset := (setAlarm (σ := σ) hb (some
      { time, times := times % 2 ^ 32, ticks := ticks time })).trans (link (b := b) (ticks time))
  unfold Alarms.construct
  simp only
  split
  · exact hset.trans (insert hb _)
  · exact (hset.trans (setDue _)).trans (fire hb)

/-- `reset()` of another alarm leaves this one alone. -/
theorem reset (hb : b ≠ a) : Untouched σ (σ.reset b) a := by
  unfold Alarms.reset
  cases σ.alarm b with
  | none => exact refl σ a
  | some alarm =>
    simp only
    exact ((remove hb).trans (setRank _)).trans (insert hb _)

/-- A new period of another alarm leaves this one alone. -/
theorem period (hb : b ≠ a) (p : Nat) : Untouched σ (σ.period ticks b p) a := by
  unfold Alarms.period
  cases σ.alarm b with
  | none => exact refl σ a
  | some alarm =>
    simp only
    exact ((remove hb).trans (setAlarm hb _)).trans (insert hb _)

/-- Another alarm that expires leaves this one alone. -/
theorem expire (hb : b ≠ a) : Untouched σ (σ.expire b) a := by
  unfold Alarms.expire
  cases σ.alarm b with
  | none => exact ⟨rfl, .rfl, rfl⟩
  | some alarm =>
    have hfire := (fire (σ := σ) hb).trans
      (setAlarm hb (some { alarm with times := decrement alarm.times }))
    simp only
    split
    · exact (hfire.trans (setRank _)).trans (insert hb _)
    · exact hfire

end Untouched

/-! ## Ticks -/

/-- An alarm that expires keeps the alarms stored. -/
theorem Stores.expire (h : σ.Stores) (hna : a ∉ σ.armed) (ha : σ.alarm a ≠ none) :
    (σ.expire a).Stores := by
  obtain ⟨alarm, ha⟩ := Option.ne_none_iff_exists'.mp ha
  have hset : ((σ.fire a).setAlarm a
      (some { alarm with times := decrement alarm.times })).Stores := h
  unfold Alarms.expire
  simp only [ha]
  split
  · exact (hset.setRank hna alarm.ticks).insert hna _
  · exact hset

/-- A tick passes without a call, or the handler of an alarm of the queue is called. -/
theorem Stores.handler_cases (h : σ.Stores) :
    (σ.handler.Stores ∧ ∀ a, Untouched σ σ.handler a) ∨
      ∃ (b : α) (σ' : Alarms α), b ∈ σ.armed ∧ σ'.Stores ∧ σ'.alarm = σ.alarm ∧
        σ'.armed = σ.armed.erase b ∧ σ'.fired = σ.fired ∧ σ.handler = σ'.expire b := by
  obtain ⟨q, absolute, l, hreq, hq⟩ := h
  unfold Alarms.handler
  simp only [hreq, hq.keeps.represents.empty_eq]
  cases l with
  | nil => exact .inl ⟨⟨q, absolute, [], rfl, hq⟩, fun a => ⟨rfl, .rfl, rfl⟩⟩
  | cons x xs =>
    have hhead : q.header.head = some x := hq.keeps.represents.head
    have hearlier (y : α) : (fun y => absolute y - 1) y = absolute y - 1 := rfl
    obtain ⟨q', heq, hq'⟩ := hq.promoteHead (by simp) hearlier
    have hx : x ∈ σ.armed := (hq.order.mem_iff x).mp List.mem_cons_self
    simp only [List.isEmpty_cons, Bool.false_eq_true, if_false, heq, hhead]
    split
    · obtain ⟨q'', heq', hq''⟩ := hq'.removeHead
      simp only [heq']
      let σ' : Alarms α :=
        { σ with request := some q'', elapsed := σ.elapsed + 1, armed := σ.armed.erase x }
      exact .inr ⟨x, σ', hx, ⟨q'', _, xs, rfl, hq''⟩, rfl, rfl, rfl, rfl⟩
    · exact .inl ⟨⟨q', _, _, rfl, hq'⟩, fun a => ⟨rfl, .rfl, rfl⟩⟩

/-- Every step keeps the alarms stored. -/
theorem Stores.step (h : σ.Stores) (hs : σ.Sound) (x : AlarmAction α) (hx : σ.CanStep x) :
    (σ.step ticks x).Stores := by
  cases x with
  | construct a time times =>
    -- the alarm is new, so it is not armed yet
    have hna : a ∉ σ.armed := fun hmem => hs.constructed a hmem hx
    have hset : (σ.setAlarm a
        (some { time, times := times % 2 ^ 32, ticks := ticks time })).Stores := h
    have hlink := hset.link hna (ticks time)
    simp only [Alarms.step, Alarms.construct]
    split
    · exact hlink.insert hna _
    · exact hlink
  | destroy a => exact h.remove a
  | reset a =>
    obtain ⟨alarm, ha⟩ := Option.ne_none_iff_exists'.mp hx
    have hna := hs.not_mem_remove a
    simp only [Alarms.step, Alarms.reset, ha]
    exact ((h.remove a).setRank hna alarm.ticks).insert hna _
  | period a p =>
    obtain ⟨alarm, ha⟩ := Option.ne_none_iff_exists'.mp hx
    have hset : ((σ.remove a).setAlarm a
        (some { alarm with time := p, ticks := ticks p })).Stores := h.remove a
    simp only [Alarms.step, Alarms.period, ha]
    exact hset.insert (hs.not_mem_remove a) _
  | tick =>
    -- the handler is quiet, or it calls one alarm that has left the queue
    cases h.handler_cases with
    | inl hquiet => exact hquiet.1
    | inr hcall =>
      obtain ⟨b, σ', hb, hstores, halarm, harmed, -, heq⟩ := hcall
      show σ.handler.Stores
      rw [heq]
      apply hstores.expire
      · rw [harmed]
        exact hs.nodup.not_mem_erase
      · rw [halarm]
        exact hs.constructed b hb

end Alarms

/-! ## Counted calls -/

/-- Alarms, the number of times with which each of them was constructed and how often its
    handler had been called until then. -/
structure CountedAlarms (α : Type*) where
  alarms : Alarms α
  times : α → Nat := fun _ => 0
  before : α → Nat := fun _ => 0

namespace CountedAlarms

variable {c : CountedAlarms α} {a b : α} {x : Alarm} {ticks : Nat → Int}

/-- The calls of the handler of `a` in the log. -/
def logged (c : CountedAlarms α) (a : α) : Nat := c.alarms.fired.countP (·.alarm = a)

/-- The calls since `a` was constructed. -/
def calls (c : CountedAlarms α) (a : α) : Nat := c.logged a - c.before a

def step (ticks : Nat → Int) (c : CountedAlarms α) (x : AlarmAction α) : CountedAlarms α :=
  { alarms := c.alarms.step ticks x
    times :=
      match x with
      | .construct a _ times => Function.update c.times a (times % 2 ^ 32)
      | _ => c.times
    before :=
      match x with
      | .construct a _ _ => Function.update c.before a (c.logged a)
      | _ => c.before }

omit [DecidableEq α] in
/-- Neither zero times nor `INFINITE`. -/
def Finite (c : CountedAlarms α) (a : α) : Prop := 0 < c.times a ∧ c.times a < infinite

/-- The handlers of alarms with a finite number of times have not been called more often,
    and what is left of it is no more. -/
def Bounded (c : CountedAlarms α) : Prop :=
  ∀ a x, c.alarms.alarm a = some x → c.Finite a →
    c.calls a ≤ c.times a ∧ x.times ≤ c.times a ∧ x.times ≠ infinite

/-- `reset()` and `period()` are called while the alarm is in the queue. -/
def TouchesQueued (c : CountedAlarms α) : AlarmAction α → Prop
  | .reset a | .period a _ => c.Finite a → a ∈ c.alarms.armed
  | _ => True

instance (c : CountedAlarms α) (a : α) : Decidable (c.Finite a) :=
  inferInstanceAs (Decidable (_ ∧ _))

instance (c : CountedAlarms α) (x : AlarmAction α) : Decidable (c.TouchesQueued x) :=
  match x with
  | .reset _ | .period _ _ => inferInstanceAs (Decidable (_ → _))
  | .construct _ _ _ | .destroy _ | .tick => isTrue trivial

/-! ### What is left and what was called -/

/-- With `k` calls behind it, the alarm is in the queue and has the others left, or it has
    made all its calls, or it was due at once when it was constructed. -/
inductive Account (n : Nat) (k : Nat) (times : Nat) : Prop → Prop
  | queued {p : Prop} : p → 0 < times → times + k = n → Account n k times p
  | exhausted {p : Prop} : ¬ p → times = 0 → k = n → Account n k times p
  | atOnce {p : Prop} : ¬ p → times = n → k = 1 → Account n k times p

structure Inv (c : CountedAlarms α) : Prop where
  stores : c.alarms.Stores
  sound : c.alarms.Sound
  account : ∀ a x, c.alarms.alarm a = some x → c.Finite a →
    ∃ k, c.logged a = c.before a + k ∧ Account (c.times a) k x.times (a ∈ c.alarms.armed)

/-- The invariant bounds the calls. -/
theorem Inv.bounded (h : c.Inv) : c.Bounded := by
  intro a x hx hfinite
  obtain ⟨k, hk, haccount⟩ := h.account a x hx hfinite
  have hcalls : c.calls a = k := by
    unfold calls
    omega
  obtain ⟨hpos, hlt⟩ := hfinite
  rw [hcalls]
  cases haccount with
  | queued _ _ heq => omega
  | exhausted _ _ _ => omega
  | atOnce _ _ _ => omega

/-- A finite number of repetitions goes down by one. -/
theorem decrement_pos {n : Nat} (hpos : 0 < n) (hlt : n < infinite) :
    Alarms.decrement n = n - 1 := by
  unfold Alarms.decrement
  have hmod : n + infinite = (n - 1) + 2 ^ 32 := by
    unfold infinite
    omega
  have hsmall : n - 1 < 2 ^ 32 := by
    unfold infinite at hlt
    omega
  rw [if_pos (Nat.ne_of_lt hlt), hmod, Nat.add_mod_right, Nat.mod_eq_of_lt hsmall]

/-- What happens to other alarms does not matter. -/
theorem Inv.account_of_untouched (h : c.Inv) {c' : CountedAlarms α}
    (hu : Alarms.Untouched c.alarms c'.alarms a) (htimes : c'.times a = c.times a)
    (hbefore : c'.before a = c.before a) (hx : c'.alarms.alarm a = some x) (hfinite : c'.Finite a) :
    ∃ k, c'.logged a = c'.before a + k ∧
      Account (c'.times a) k x.times (a ∈ c'.alarms.armed) := by
  have hfinite' : c.Finite a := by
    unfold Finite at hfinite ⊢
    rwa [htimes] at hfinite
  obtain ⟨k, hk, haccount⟩ := h.account a x (hu.alarm ▸ hx) hfinite'
  have hlogged : c'.logged a = c.logged a := hu.fired
  rw [hlogged, htimes, hbefore, propext hu.armed]
  exact ⟨k, hk, haccount⟩

/-- The last call takes the alarm out of the queue. -/
theorem Inv.expire (h : c.Inv) {σ : Alarms α} (ha : a ∈ c.alarms.armed)
    (halarm : σ.alarm = c.alarms.alarm) (harmed : σ.armed = c.alarms.armed.erase a)
    (hfired : σ.fired = c.alarms.fired) (hx : (σ.expire a).alarm a = some x)
    (hfinite : c.Finite a) :
    ∃ k, (σ.expire a).fired.countP (·.alarm = a) = c.before a + k ∧
      Account (c.times a) k x.times (a ∈ (σ.expire a).armed) := by
  obtain ⟨y, hy⟩ := Option.ne_none_iff_exists'.mp (h.sound.constructed a ha)
  obtain ⟨k, hk, haccount⟩ := h.account a y hy hfinite
  have hna : a ∉ σ.armed := by
    rw [harmed]
    exact h.sound.nodup.not_mem_erase
  -- An alarm in the queue has calls left.
  obtain ⟨hpos, hleft⟩ : 0 < y.times ∧ y.times + k = c.times a := by
    cases haccount with
    | queued _ hpos heq => exact ⟨hpos, heq⟩
    | exhausted hnot _ _ => exact absurd ha hnot
    | atOnce hnot _ _ => exact absurd ha hnot
  have hlt : y.times < infinite := by
    have := hfinite.2
    omega
  have hcount : (σ.fire a).fired.countP (·.alarm = a) = c.before a + (k + 1) := by
    show List.countP _ (_ :: σ.fired) = _
    rw [List.countP_cons_of_pos (by simp), hfired]
    have hlogged : c.alarms.fired.countP (·.alarm = a) = c.before a + k := hk
    omega
  rw [← halarm] at hy
  unfold Alarms.expire at hx ⊢
  simp only [hy, decrement_pos hpos hlt] at hx ⊢
  by_cases hmore : 0 < y.times - 1
  · -- It goes back into the queue.
    rw [if_pos hmore] at hx ⊢
    have hx' : some { y with times := y.times - 1 } = some x :=
      (Alarms.setAlarm_alarm _ a _).symm.trans hx
    cases hx'
    refine ⟨k + 1, hcount, .queued (List.mem_append_right _ (List.mem_singleton_self a)) hmore ?_⟩
    show y.times - 1 + (k + 1) = c.times a
    omega
  · rw [if_neg hmore] at hx ⊢
    have hx' : some { y with times := y.times - 1 } = some x :=
      (Alarms.setAlarm_alarm _ a _).symm.trans hx
    cases hx'
    refine ⟨k + 1, hcount, .exhausted hna ?_ ?_⟩
    · show y.times - 1 = 0
      omega
    · omega

/-- A new alarm has all its calls to come. -/
theorem Inv.construct (h : c.Inv) (ha : c.alarms.alarm a = none) (time times : Nat)
    (hx : (c.alarms.construct ticks a time times).alarm a = some x)
    (hpos : 0 < times % 2 ^ 32) :
    ∃ k, (c.alarms.construct ticks a time times).fired.countP (·.alarm = a) = c.logged a + k ∧
      Account (times % 2 ^ 32) k x.times (a ∈ (c.alarms.construct ticks a time times).armed) := by
  have hna : a ∉ c.alarms.armed := fun hmem => h.sound.constructed a hmem ha
  unfold Alarms.construct at hx ⊢
  simp only at hx ⊢
  by_cases ht : ticks time ≠ 0
  · rw [if_pos ht] at hx ⊢
    have hx' : some { time, times := times % 2 ^ 32, ticks := ticks time } = some x :=
      (Alarms.setAlarm_alarm _ a _).symm.trans hx
    cases hx'
    exact ⟨0, rfl, .queued (List.mem_append_right _ (List.mem_singleton_self a)) hpos rfl⟩
  · rw [if_neg ht] at hx ⊢
    have hx' : some { time, times := times % 2 ^ 32, ticks := ticks time } = some x :=
      (Alarms.setAlarm_alarm _ a _).symm.trans hx
    cases hx'
    refine ⟨1, ?_, .atOnce hna rfl rfl⟩
    exact List.countP_cons_of_pos (by simp)

/-- Putting an alarm that is in the queue back changes nothing. -/
theorem Inv.requeue (h : c.Inv) (ha : a ∈ c.alarms.armed) {y : Alarm} {σ : Alarms α}
    (hy : c.alarms.alarm a = some y) (htimes : x.times = y.times) (harmed : a ∈ σ.armed)
    (hfired : σ.fired = c.alarms.fired) (hfinite : c.Finite a) :
    ∃ k, σ.fired.countP (·.alarm = a) = c.before a + k ∧
      Account (c.times a) k x.times (a ∈ σ.armed) := by
  obtain ⟨k, hk, haccount⟩ := h.account a y hy hfinite
  refine ⟨k, by rw [hfired]; exact hk, ?_⟩
  cases haccount with
  | queued _ hpos heq => exact .queued harmed (htimes ▸ hpos) (htimes ▸ heq)
  | exhausted hnot _ _ => exact absurd ha hnot
  | atOnce hnot _ _ => exact absurd ha hnot

/-- Every step keeps the invariant. -/
theorem Inv.step (h : c.Inv) (y : AlarmAction α) (hy : c.alarms.CanStep y)
    (hc : c.TouchesQueued y) : (c.step ticks y).Inv := by
  refine ⟨h.stores.step h.sound y hy, h.sound.step y hy, fun a x hx hfinite => ?_⟩
  cases y with
  | construct b time times =>
    -- any other alarm keeps its entry, its rank and its count
    by_cases hb : b = a
    · subst hb
      have htimes : (c.step ticks (.construct b time times)).times b = times % 2 ^ 32 :=
        Function.update_self _ _ _
      have hbefore : (c.step ticks (.construct b time times)).before b = c.logged b :=
        Function.update_self _ _ _
      rw [htimes, hbefore]
      exact h.construct hy time times hx (htimes ▸ hfinite.1)
    · exact h.account_of_untouched (.construct hb time times)
        (Function.update_of_ne (Ne.symm hb) _ _) (Function.update_of_ne (Ne.symm hb) _ _) hx
        hfinite
  | destroy b =>
    by_cases hb : b = a
    · subst hb
      -- nothing is left to account for
      cases (Alarms.setAlarm_alarm _ b none).symm.trans hx
    · exact h.account_of_untouched ((Alarms.Untouched.remove hb).trans (.setAlarm hb none)) rfl rfl
        hx hfinite
  | reset b =>
    by_cases hb : b = a
    · subst hb
      -- a finite alarm is only touched while it is queued, so it is queued again with its count
      have hqueued : b ∈ c.alarms.armed := hc hfinite
      obtain ⟨z, hz⟩ := Option.ne_none_iff_exists'.mp hy
      have heq : c.alarms.reset b = ((c.alarms.remove b).setRank b z.ticks).insert b z.ticks := by
        unfold Alarms.reset
        rw [hz]
      have hx' : (c.alarms.reset b).alarm b = some x := hx
      rw [heq] at hx'
      cases hz.symm.trans hx'
      have hkept := h.requeue (x := x) (σ := c.alarms.reset b) hqueued hz rfl
        (by rw [heq]; exact List.mem_append_right _ (List.mem_singleton_self b))
        (by rw [heq]; rfl) hfinite
      exact hkept
    · exact h.account_of_untouched (.reset hb) rfl rfl hx hfinite
  | period b p =>
    by_cases hb : b = a
    · subst hb
      have hqueued : b ∈ c.alarms.armed := hc hfinite
      obtain ⟨z, hz⟩ := Option.ne_none_iff_exists'.mp hy
      have heq : c.alarms.period ticks b p = ((c.alarms.remove b).setAlarm b
          (some { z with time := p, ticks := ticks p })).insert b (ticks p) := by
        unfold Alarms.period
        rw [hz]
      have hx' : (c.alarms.period ticks b p).alarm b = some x := hx
      rw [heq] at hx'
      cases (Alarms.setAlarm_alarm _ b _).symm.trans hx'
      have hkept := h.requeue (x := { z with time := p, ticks := ticks p })
        (σ := c.alarms.period ticks b p) hqueued hz rfl
        (by rw [heq]; exact List.mem_append_right _ (List.mem_singleton_self b))
        (by rw [heq]; rfl) hfinite
      exact hkept
    · exact h.account_of_untouched (.period hb p) rfl rfl hx hfinite
  | tick =>
    cases h.stores.handler_cases with
    | inl hquiet => exact h.account_of_untouched (hquiet.2 a) rfl rfl hx hfinite
    | inr hcall =>
      -- the head has expired: only its own count goes down
      obtain ⟨b, σ', hb, -, halarm, harmed, hfired, heq⟩ := hcall
      have hx' : c.alarms.handler.alarm a = some x := hx
      by_cases hba : b = a
      · subst hba
        have hkept := h.expire hb halarm harmed hfired (heq ▸ hx') hfinite
        rw [← heq] at hkept
        exact hkept
      · have htaken : Alarms.Untouched c.alarms σ' a := by
          refine ⟨by rw [halarm], ?_, by rw [hfired]⟩
          rw [harmed]
          exact List.mem_erase_of_ne (Ne.symm hba)
        have hu : Alarms.Untouched c.alarms c.alarms.handler a := by
          rw [heq]
          exact htaken.trans (.expire hba)
        exact h.account_of_untouched hu rfl rfl hx hfinite

end CountedAlarms

/-- The runs of `alarmSystem`, with the calls counted. -/
def countedAlarmSystem (α : Type*) [DecidableEq α] (w timerPeriod : Nat) :
    TransitionSystem (CountedAlarms α) (AlarmAction α) where
  Init c := c.alarms.Idle
  Enabled c x := c.alarms.CanStep x
  next c x := c.step (ticks w timerPeriod) x

/-- Where `reset()` and `period()` find their alarms in the queue, no handler is called more
    often than its alarm says, and no count wraps. -/
theorem alarm_calls_bounded (w timerPeriod : Nat) (c : CountedAlarms α)
    (as : List (AlarmAction α)) (hinit : (countedAlarmSystem α w timerPeriod).Init c)
    (hv : (countedAlarmSystem α w timerPeriod).Valid c as)
    (hm : (countedAlarmSystem α w timerPeriod).Meets CountedAlarms.TouchesQueued c as) :
    (countedAlarmSystem α w timerPeriod).Always CountedAlarms.Bounded c as := by
  have hinv : c.Inv := by
    refine ⟨hinit.stores, hinit.serves.2, fun a x hx _ => ?_⟩
    rw [hinit.2.1 a] at hx
    cases hx
  exact (TransitionSystem.Meets.always (fun c x h hx hc => h.step x hx hc) hinv hv hm).imp
    fun _ h => h.bounded

instance (w timerPeriod : Nat) (c : CountedAlarms α) (x : AlarmAction α) :
    Decidable ((countedAlarmSystem α w timerPeriod).Enabled c x) :=
  inferInstanceAs (Decidable (c.alarms.CanStep x))

/-- An alarm that is called twice. -/
theorem alarm_calls_bounded_example : (countedAlarmSystem Nat 32 1000).Always
    CountedAlarms.Bounded { alarms := noAlarms }
    [.construct 1 1000 2, .tick, .reset 1, .period 1 1000, .tick, .tick] :=
  alarm_calls_bounded 32 1000 _ _ ⟨⟨_, _, rfl⟩, fun _ => rfl, rfl, rfl, rfl⟩ (by decide)
    (by decide)

/-- An alarm for one time that is reset after it has gone off goes off again, and has
    `INFINITE` times left. -/
theorem not_alarm_calls_bounded : ¬ ∀ as,
    (countedAlarmSystem Nat 32 1000).Valid { alarms := noAlarms } as →
      (countedAlarmSystem Nat 32 1000).Always CountedAlarms.Bounded { alarms := noAlarms } as := by
  intro hall
  have hrun := (hall [.construct 1 1000 1, .tick, .reset 1, .tick] (by decide)).last
  have hcalls := hrun 1 { time := 1000, times := infinite, ticks := 1 } (by decide) (by decide)
  exact hcalls.2.2 rfl

end Epos
