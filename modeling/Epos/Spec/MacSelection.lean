import Epos.ForStd.Selection
import Epos.Spec.MacCorrect
import Mathlib.Data.Prod.Lex
import Mathlib.Order.Lattice

/-!
# The message that the MAC transmits next

`update_tx_schedule` compares each message with the pending one, and looks at the class of the
pending one first: an ordinary message is replaced by an ACK only where that has been transmitted
less often or has an earlier deadline, and by a keepalive just so.
-/

namespace Epos

namespace TSTP.MAC

open Selection

variable {Addr Frame : Type} (env : Env Frame)

/-! ## Priorities -/

/-- What the comments tell apart. -/
inductive Class where
  | ack
  | ordinary
  | keepAlive
  deriving DecidableEq, Repr

/-- ACKs are prioritized, and non-keepalives over keepalives. -/
def Class.rank : Class → Nat
  | .ack => 0
  | .ordinary => 1
  | .keepAlive => 2

def classOf (b : Buffer Frame) : Class :=
  if b.destined_to_me then .ack
  else if State.keepAlive env b then .keepAlive
  else .ordinary

/-- The number of transmissions, and then the deadline. -/
def key (b : Buffer Frame) : Nat ×ₗ Nat := toLex (b.times_txed.toNat, b.deadline.toNat)

/-- The class, and within it the key. -/
def score (b : Buffer Frame) : Nat ×ₗ (Nat ×ₗ Nat) := toLex ((classOf env b).rank, key b)

/-- A message of a list that is as good as any. -/
structure Best (l : List (Addr × Buffer Frame)) (x : Addr × Buffer Frame) : Prop where
  mem : x ∈ l
  le : ∀ y ∈ l, score env x.2 ≤ score env y.2

variable {env} {l : List (Addr × Buffer Frame)} {x y : Addr × Buffer Frame}

/-- The comparison of the source is that of the keys. -/
theorem before_iff (b p : Buffer Frame) : State.before b p = true ↔ key b < key p := by
  rw [key, key, Prod.Lex.toLex_lt_toLex]
  simp [State.before, UInt32.lt_iff_toNat_lt, UInt64.lt_iff_toNat_lt, ← UInt32.toNat_inj]

/-- Classes of the same rank are the same. -/
theorem Class.rank_inj {c c' : Class} (h : c.rank = c'.rank) : c = c' := by
  cases c <;> cases c' <;> first | rfl | cases h

/-- Two messages have the same score exactly if they have the same class and key. -/
theorem score_eq_iff (b p : Buffer Frame) :
    score env b = score env p ↔ classOf env b = classOf env p ∧ key b = key p := by
  rw [score, score, toLex_inj, Prod.mk.injEq]
  exact and_congr_left fun _ => ⟨Class.rank_inj, congrArg Class.rank⟩

variable (env) in
/-- There is a best message. -/
theorem exists_best (h : l ≠ []) : ∃ x, Best env l x := by
  induction l with
  | nil => exact absurd rfl h
  | cons y rest ih =>
    by_cases hrest : rest = []
    · subst hrest
      exact ⟨y, List.mem_singleton.mpr rfl, by simp⟩
    · obtain ⟨x, hx⟩ := ih hrest
      by_cases hle : score env x.2 ≤ score env y.2
      · exact ⟨x, List.mem_cons_of_mem y hx.mem, List.forall_mem_cons.mpr ⟨hle, hx.le⟩⟩
      · have hlt := lt_of_not_ge hle
        refine ⟨y, List.mem_cons_self, List.forall_mem_cons.mpr ⟨le_refl _, fun z hz => ?_⟩⟩
        exact le_trans (le_of_lt hlt) (hx.le z hz)

namespace Best

/-- All that are best have one class and one key. -/
theorem unique (hx : Best env l x) (hy : Best env l y) :
    classOf env x.2 = classOf env y.2 ∧ key x.2 = key y.2 :=
  (score_eq_iff x.2 y.2).mp (le_antisymm (hx.le y hy.mem) (hy.le x hx.mem))

/-- A message of the same class and key is as good. -/
theorem congr (hx : Best env l x) (hy : y ∈ l) (hclass : classOf env x.2 = classOf env y.2)
    (hkey : key x.2 = key y.2) : Best env l y :=
  ⟨hy, (score_eq_iff x.2 y.2).mpr ⟨hclass, hkey⟩ ▸ hx.le⟩

/-- Nothing is of a better class. -/
theorem rank_le (hx : Best env l x) (hy : y ∈ l) :
    (classOf env x.2).rank ≤ (classOf env y.2).rank := by
  have hle := hx.le y hy
  rw [score, score, Prod.Lex.toLex_le_toLex] at hle
  cases hle with
  | inl hlt => exact Nat.le_of_lt hlt
  | inr heq => exact Nat.le_of_eq heq.1

/-- Nothing of its class goes before it. -/
theorem not_before (hx : Best env l x) (hy : y ∈ l)
    (hclass : classOf env x.2 = classOf env y.2) : State.before y.2 x.2 = false := by
  rw [← Bool.not_eq_true, before_iff, not_lt]
  have hle := hx.le y hy
  rw [score, score, Prod.Lex.toLex_le_toLex, hclass] at hle
  cases hle with
  | inl hlt => exact absurd hlt (Nat.lt_irrefl _)
  | inr heq => exact heq.2

/-- It goes before what is of its class and is not best. -/
theorem before (hx : Best env l x) (hy : y ∈ l) (hclass : classOf env x.2 = classOf env y.2)
    (hbad : ¬ Best env l y) : State.before x.2 y.2 = true := by
  rw [before_iff]
  have hle : key x.2 ≤ key y.2 := by
    have hnot := hx.not_before hy hclass
    rwa [← Bool.not_eq_true, before_iff, not_lt] at hnot
  exact lt_of_le_of_ne hle fun heq => hbad (hx.congr hy hclass heq)

end Best

/-- A message of another class is not the best. -/
theorem not_best_of_class (hx : Best env l x) (hclass : classOf env y.2 ≠ classOf env x.2) :
    ¬ Best env l y :=
  fun hy => hclass (hy.unique hx).1

/-! ## Who takes the place of whom -/

/-- `preferred`, by the class of the pending message. -/
theorem preferred_eq (b p : Buffer Frame) :
    State.preferred env b p =
      match classOf env p with
      | .ack => b.destined_to_me && State.before b p
      | .keepAlive => !State.keepAlive env b || State.before b p
      | .ordinary => State.before b p := by
  rw [State.preferred, classOf]
  split
  · rfl
  · split <;> rfl

variable (env) in
/-- The acknowledgements are the messages for this node. -/
theorem classOf_eq_ack (b : Buffer Frame) : classOf env b = .ack ↔ b.destined_to_me = true := by
  rw [classOf]
  split
  · simp_all
  · split <;> simp_all

/-- The messages of this class pass the test of the source. -/
theorem keepAlive_of_class {b : Buffer Frame} (h : classOf env b = .keepAlive) :
    State.keepAlive env b = true := by
  rw [classOf] at h
  split at h
  · cases h
  · split at h
    · assumption
    · cases h

/-- Ordinary messages fail it. -/
theorem keepAlive_of_ordinary {b : Buffer Frame} (h : classOf env b = .ordinary) :
    State.keepAlive env b = false := by
  rw [classOf] at h
  split at h
  · cases h
  · split at h
    · cases h
    · next hnot => simpa using hnot

/-- Only the keys matter. -/
theorem before_congr {b b' p p' : Buffer Frame} (hb : key b = key b') (hp : key p = key p') :
    State.before b p = State.before b' p' := by
  rw [Bool.eq_iff_iff, before_iff, before_iff, hb, hp]

/-- The test of the loop, on messages with their places. -/
def takes (env : Env Frame) (b p : Addr × Buffer Frame) : Bool := State.preferred env b.2 p.2

/-- All that are best are replaced by the same messages. -/
theorem takes_best (hx : Best env l x) {x' : Addr × Buffer Frame} (hx' : Best env l x')
    (y : Addr × Buffer Frame) : takes env y x = takes env y x' := by
  obtain ⟨hclass, hkey⟩ := hx.unique hx'
  rw [takes, takes, preferred_eq, preferred_eq, hclass, before_congr rfl hkey]

/-- Of all that are best, one that is not a keepalive replaces most. -/
theorem exists_most (hne : l ≠ []) :
    ∃ g ∈ l, Best env l g ∧
      ∀ x ∈ l, Best env l x → ∀ y ∈ l, ¬ Best env l y → takes env x y = true →
        takes env g y = true := by
  -- the choice is between a keepalive and another message only
  have hchoose : ∃ g, Best env l g ∧
      ∀ x, Best env l x → State.keepAlive env x.2 = false → State.keepAlive env g.2 = false := by
    by_cases hex : ∃ g, Best env l g ∧ State.keepAlive env g.2 = false
    · obtain ⟨g, hg, hnot⟩ := hex
      exact ⟨g, hg, fun _ _ _ => hnot⟩
    · obtain ⟨g, hg⟩ := exists_best env hne
      exact ⟨g, hg, fun x hx hnot => absurd ⟨x, hx, hnot⟩ hex⟩
  obtain ⟨g, hg, hmost⟩ := hchoose
  refine ⟨g, hg.mem, hg, fun x _ hx y _ _ htakes => ?_⟩
  obtain ⟨hclass, hkey⟩ := hx.unique hg
  rw [takes, preferred_eq] at htakes ⊢
  have hack : x.2.destined_to_me = true ↔ g.2.destined_to_me = true := by
    rw [← classOf_eq_ack env, ← classOf_eq_ack env, hclass]
  rw [before_congr hkey.symm rfl]
  split at htakes
  · simp only [Bool.and_eq_true] at htakes ⊢
    exact ⟨hack.mp htakes.1, htakes.2⟩
  · simp only [Bool.or_eq_true, Bool.not_eq_true'] at htakes ⊢
    exact htakes.imp_left (hmost x hx)
  · exact htakes

/-! ## What the order must not decide -/

variable (env) in
/-- No ACK has to wait for an ordinary message or for a keepalive, and no ordinary message for a
    keepalive. The first of the two concerns all that are best, as they have one class and one
    key. An ACK that is no keepalive itself never waits for a keepalive. -/
structure Separated (l : List (Addr × Buffer Frame)) (x : Addr × Buffer Frame) : Prop where
  ordinary : classOf env x.2 = .ack → ∀ y ∈ l, classOf env y.2 = .ordinary → key x.2 < key y.2
  keepAlive : classOf env x.2 = .ack →
    (∃ x', Best env l x' ∧ State.keepAlive env x'.2 = false) ∨
      ∀ y ∈ l, classOf env y.2 = .keepAlive → key x.2 < key y.2
  other : classOf env x.2 = .ordinary →
    ∀ y ∈ l, classOf env y.2 = .keepAlive → key x.2 ≤ key y.2

/-- Within a class the earlier message takes over. -/
theorem takes_of_before (hclass : classOf env x.2 = classOf env y.2)
    (h : State.before x.2 y.2 = true) : takes env x y = true := by
  rw [takes, preferred_eq]
  cases hy : classOf env y.2 with
  | ack => simp [h, (classOf_eq_ack env x.2).mp (hclass.trans hy)]
  | ordinary => exact h
  | keepAlive => simp [h]

/-- Within a class the later one does not. -/
theorem takes_of_not_before (hclass : classOf env x.2 = classOf env y.2)
    (h : State.before y.2 x.2 = false) : takes env y x = false := by
  rw [takes, preferred_eq]
  cases hx : classOf env x.2 with
  | ack => simp [h]
  | ordinary => exact h
  | keepAlive => simp [h, keepAlive_of_class (hclass.symm.trans hx)]

/-- The best message is separated when the pairs are. -/
theorem Separated.of_takes
    (h : ∀ y ∈ l, ¬ Best env l y → (∃ x ∈ l, Best env l x ∧ takes env x y = true) ∧
      ∀ x ∈ l, Best env l x → takes env y x = false) (hx : Best env l x) : Separated env l x where
  -- an ACK takes over an ordinary message by the times only
  ordinary hclass y hy hy' := by
    obtain ⟨x', -, hx', htakes⟩ :=
      (h y hy (not_best_of_class hx (by rw [hclass, hy']; decide))).1
    rw [takes, preferred_eq, hy'] at htakes
    rw [(hx.unique hx').2]
    exact (before_iff _ _).mp htakes
  -- by the times only when every best ACK counts as a keep alive itself
  keepAlive hclass := by
    by_cases hex : ∃ x', Best env l x' ∧ State.keepAlive env x'.2 = false
    · exact Or.inl hex
    · refine Or.inr fun y hy hy' => ?_
      obtain ⟨x', -, hx', htakes⟩ :=
        (h y hy (not_best_of_class hx (by rw [hclass, hy']; decide))).1
      have hkeep : State.keepAlive env x'.2 = true := by
        by_contra hnot
        exact hex ⟨x', hx', by simpa using hnot⟩
      rw [takes, preferred_eq, hy'] at htakes
      rw [(hx.unique hx').2]
      exact (before_iff _ _).mp (by simpa [hkeep] using htakes)
  -- a keep alive does not take over, so its times are not the earlier ones
  other hclass y hy hy' := by
    have htakes := (h y hy (not_best_of_class hx (by rw [hclass, hy']; decide))).2 x hx.mem hx
    rw [takes, preferred_eq, hclass] at htakes
    rwa [← Bool.not_eq_true, before_iff, not_lt] at htakes

/-- Some message that is best takes the place of one that is not. -/
theorem exists_takes (h : ∀ x, Best env l x → Separated env l x) (hy : y ∈ l)
    (hbad : ¬ Best env l y) : ∃ x ∈ l, Best env l x ∧ takes env x y = true := by
  obtain ⟨x, hx⟩ := exists_best env (List.ne_nil_of_mem hy)
  by_cases hsame : classOf env x.2 = classOf env y.2
  · exact ⟨x, hx.mem, hx, takes_of_before hsame (hx.before hy hsame hbad)⟩
  · -- A best message is of the best class there is, and `Separated` says what it may pass.
    have hrank := hx.rank_le hy
    have hsep := h x hx
    cases hclass : classOf env x.2 with
    | ack =>
      cases hclass' : classOf env y.2 with
      | ack => exact absurd (hclass.trans hclass'.symm) hsame
      | ordinary =>
        refine ⟨x, hx.mem, hx, ?_⟩
        rw [takes, preferred_eq, hclass']
        exact (before_iff _ _).mpr (hsep.ordinary hclass y hy hclass')
      | keepAlive =>
        cases hsep.keepAlive hclass with
        | inl hex =>
          obtain ⟨x', hx', hnot⟩ := hex
          refine ⟨x', hx'.mem, hx', ?_⟩
          rw [takes, preferred_eq, hclass']
          simp [hnot]
        | inr hall =>
          refine ⟨x, hx.mem, hx, ?_⟩
          rw [takes, preferred_eq, hclass']
          simp [(before_iff _ _).mpr (hall y hy hclass')]
    | ordinary =>
      cases hclass' : classOf env y.2 with
      | ack => simp [hclass, hclass', Class.rank] at hrank
      | ordinary => exact absurd (hclass.trans hclass'.symm) hsame
      | keepAlive =>
        refine ⟨x, hx.mem, hx, ?_⟩
        rw [takes, preferred_eq, hclass']
        simp [keepAlive_of_ordinary hclass]
    | keepAlive =>
      cases hclass' : classOf env y.2 with
      | ack => simp [hclass, hclass', Class.rank] at hrank
      | ordinary => simp [hclass, hclass', Class.rank] at hrank
      | keepAlive => exact absurd (hclass.trans hclass'.symm) hsame

/-- A message that is best keeps its place. -/
theorem not_takes (hsep : Separated env l x) (hx : Best env l x) (hy : y ∈ l) :
    takes env y x = false := by
  by_cases hsame : classOf env x.2 = classOf env y.2
  · exact takes_of_not_before hsame (hx.not_before hy hsame)
  · have hrank := hx.rank_le hy
    rw [takes, preferred_eq]
    cases hclass : classOf env x.2 with
    | ack =>
      have hack : ¬ y.2.destined_to_me = true := by
        rw [← classOf_eq_ack env, ← hclass]
        exact Ne.symm hsame
      simp [hack]
    | ordinary =>
      cases hclass' : classOf env y.2 with
      | ack => simp [hclass, hclass', Class.rank] at hrank
      | ordinary => exact absurd (hclass.trans hclass'.symm) hsame
      | keepAlive =>
        rw [← Bool.not_eq_true, before_iff, not_lt]
        exact hsep.other hclass y hy hclass'
    | keepAlive =>
      cases hclass' : classOf env y.2 with
      | ack => simp [hclass, hclass', Class.rank] at hrank
      | ordinary => simp [hclass, hclass', Class.rank] at hrank
      | keepAlive => exact absurd (hclass.trans hclass'.symm) hsame

/-- In every order the best is picked exactly when the best messages are separated. -/
theorem best_in_every_order_iff (hne : l ≠ []) :
    (∀ l', l'.Perm l → ∃ x, pick (takes env) none l' = some x ∧ Best env l x) ↔
      ∀ x, Best env l x → Separated env l x := by
  rw [good_in_every_order_iff (exists_most hne)
    (fun x _ hx x' _ hx' y _ _ => takes_best hx hx' y)]
  constructor
  · intro h x hx
    exact Separated.of_takes h hx
  · intro h y hy hbad
    exact ⟨exists_takes h hy hbad, fun x _ hx => not_takes (h x hx) hx hy⟩

/-! ## The messages of a schedule -/

/-- A message that has not expired. -/
def message (buffers : Addr → Option (Buffer Frame)) (now_us : Time_Stamp) (b : Addr) :
    Option (Addr × Buffer Frame) :=
  ((buffers b).filter fun buf => now_us < buf.deadline).map (b, ·)

def messages (buffers : Addr → Option (Buffer Frame)) (now_us : Time_Stamp) (l : List Addr) :
    List (Addr × Buffer Frame) :=
  l.filterMap (message buffers now_us)

section Messages

variable {buffers : Addr → Option (Buffer Frame)} {now_us : Time_Stamp} {b : Addr}
variable {buf : Buffer Frame} {rest as : List Addr}

/-- An expired message is left out. -/
theorem messages_cons_expired (hbuf : buffers b = some buf) (h : buf.deadline ≤ now_us) :
    messages buffers now_us (b :: rest) = messages buffers now_us rest := by
  have hnone : message buffers now_us b = none := by
    simp [message, hbuf, h]
  rw [messages, List.filterMap_cons_none hnone, messages]

/-- A message that has not expired is compared. -/
theorem messages_cons_live (hbuf : buffers b = some buf) (h : ¬ buf.deadline ≤ now_us) :
    messages buffers now_us (b :: rest) = (b, buf) :: messages buffers now_us rest := by
  have hlt : now_us < buf.deadline := UInt64.not_le.mp h
  have hsome : message buffers now_us b = some (b, buf) := by
    simp [message, hbuf, hlt]
  rw [messages, List.filterMap_cons_some hsome, messages]

/-- A message is at its address. -/
theorem fst_of_message (h : message buffers now_us b = some x) : x.1 = b := by
  rw [message] at h
  obtain ⟨buf, -, rfl⟩ := Option.map_eq_some_iff.mp h
  rfl

/-- A message of the list is the one at its address. -/
theorem message_of_mem (h : x ∈ messages buffers now_us as) :
    message buffers now_us x.1 = some x := by
  obtain ⟨b, -, hb⟩ := List.mem_filterMap.mp h
  rwa [fst_of_message hb]

/-- There is one message at an address. -/
theorem eq_of_fst (hx : x ∈ messages buffers now_us as) (hy : y ∈ messages buffers now_us as)
    (h : x.1 = y.1) : x = y := by
  have hx' := message_of_mem hx
  rw [h, message_of_mem hy] at hx'
  exact (Option.some.inj hx').symm

/-- The order of the schedule carries over. -/
theorem messages_perm {as' : List Addr} (h : as'.Perm as) :
    (messages buffers now_us as').Perm (messages buffers now_us as) :=
  h.filterMap _

/-- The addresses of the messages. -/
theorem map_fst_messages (as : List Addr) :
    (messages buffers now_us as).map Prod.fst =
      as.filter fun b => (message buffers now_us b).isSome := by
  induction as with
  | nil => rfl
  | cons b rest ih =>
    rw [messages] at ih ⊢
    cases hb : message buffers now_us b with
    | none => simp [hb, ih]
    | some x => simp [hb, ih, fst_of_message hb]

/-- Every order of the messages is the one of some schedule. -/
theorem exists_order (h : l.Perm (messages buffers now_us as)) :
    ∃ as', as'.Perm as ∧ messages buffers now_us as' = l := by
  refine ⟨l.map Prod.fst ++ as.filter fun b => !(message buffers now_us b).isSome, ?_, ?_⟩
  · have hlive := h.map Prod.fst
    rw [map_fst_messages] at hlive
    refine (hlive.append_right _).trans ?_
    exact List.filter_append_perm (fun b => (message buffers now_us b).isSome) as
  · have hlive : (l.map Prod.fst).filterMap (message buffers now_us) = l := by
      rw [List.filterMap_map]
      have hsome : ∀ x ∈ l, (message buffers now_us ∘ Prod.fst) x = some x :=
        fun x hx => message_of_mem (h.mem_iff.mp hx)
      rw [List.filterMap_congr hsome, List.filterMap_some]
    have hexpired : (as.filter fun b => !(message buffers now_us b).isSome).filterMap
        (message buffers now_us) = [] := by
      rw [List.filterMap_eq_nil_iff]
      intro b hb
      simpa using (List.mem_filter.mp hb).2
    rw [messages, List.filterMap_append, hlive, hexpired, List.append_nil]

end Messages

/-! ## The loop of `update_tx_schedule` -/

section Loop

variable [DecidableEq Addr] {s : State Addr Frame} {el : Addr}

/-- Deleting a buffer leaves the others alone. -/
theorem delete_buffers {b : Addr} (h : b ≠ el) : (s.delete el).buffers b = s.buffers b :=
  Function.update_of_ne h _ _

/-- Deleting a buffer leaves the messages in the others alone. -/
theorem messages_delete {rest : List Addr} (now_us : Time_Stamp) (h : el ∉ rest) :
    messages (s.delete el).buffers now_us rest = messages s.buffers now_us rest := by
  refine List.filterMap_congr fun b hb => ?_
  have hne : b ≠ el := fun heq => h (heq ▸ hb)
  rw [message, message, delete_buffers hne]

variable (env) in
/-- One pass keeps what `pick` keeps. -/
theorem fetch_pick (now_us : Time_Stamp) (rest : List Addr) (h : Scheduled s)
    (hrest : Remaining s rest) {p : Option (Addr × Buffer Frame)}
    (hp : s.tx_pending = p.map Prod.fst)
    (hread : ∀ x, p = some x → s.buffers x.1 = some x.2 ∧ x.1 ∈ s.tx_schedule ∧ x.1 ∉ rest) :
    ∃ s', State.fetch env now_us rest s = .ok s' ∧
      s'.tx_pending = (pick (takes env) p (messages s.buffers now_us rest)).map Prod.fst := by
  induction rest generalizing s p with
  | nil => exact ⟨s, rfl, by rw [messages, List.filterMap_nil, pick_nil, hp]⟩
  | cons el rest ih =>
    obtain ⟨buf, hobject, hbuf⟩ := h.object hrest.head_mem
    have hlater : ∀ x, p = some x → s.buffers x.1 = some x.2 ∧ x.1 ∈ s.tx_schedule ∧ x.1 ∉ rest :=
      fun x hx => ⟨(hread x hx).1, (hread x hx).2.1,
        fun hmem => (hread x hx).2.2 (List.mem_cons_of_mem _ hmem)⟩
    -- the element becomes the pending message
    have htaken := ih (s := { s with tx_pending := some el }) (p := some (el, buf))
      (h.congr rfl rfl) (hrest.tail.congr rfl) rfl
      (fun x hx => by cases hx; exact ⟨hbuf, hrest.head_mem, hrest.head_notMem⟩)
    rw [State.fetch, hobject, Except.ok_bind]
    by_cases hexpired : buf.deadline ≤ now_us
    · rw [if_pos hexpired, messages_cons_expired hbuf hexpired,
        ← messages_delete now_us hrest.head_notMem]
      refine ih (h.delete el) hrest.delete_head hp fun x hx => ?_
      have hne : x.1 ≠ el := fun heq => (hread x hx).2.2 (heq ▸ List.mem_cons_self)
      obtain ⟨hxbuf, hxmem, hxrest⟩ := hlater x hx
      exact ⟨(delete_buffers hne).trans hxbuf, (mem_delete hne).mpr hxmem, hxrest⟩
    · rw [if_neg hexpired, messages_cons_live hbuf hexpired]
      cases p with
      | none =>
        rw [hp, Option.map_none, Option.isNone_none, if_pos rfl]
        exact htaken
      | some x =>
        obtain ⟨hxbuf, hxmem, -⟩ := hlater x rfl
        have hpending : s.pending = .ok x := by
          rw [State.pending, hp, Option.map_some]
          simp only [hxbuf]
          rw [if_pos hxmem]
        rw [hp, Option.map_some, Option.isNone_some, if_neg Bool.false_ne_true, hpending, Except.ok_bind,
          pick_some_cons, takes]
        dsimp only
        by_cases hpreferred : State.preferred env buf x.2
        · rw [if_pos hpreferred, if_pos hpreferred]
          exact htaken
        · rw [if_neg hpreferred, if_neg hpreferred]
          exact ih h hrest.tail hp hlater

/-- Contending does not change what is pending. -/
theorem contend_pending {i : Inputs} {s' : State Addr Frame} (h : s.contend env i = .ok s') :
    s'.tx_pending = s.tx_pending := by
  rw [State.contend] at h
  cases hread : s.pending with
  | error fault =>
    rw [hread] at h
    cases h
  | ok x =>
    rw [hread, Except.ok_bind] at h
    cases h
    rfl

variable (env) in
/-- What `choose` selects. -/
theorem choose_pending (h : Scheduled s) (hnone : s.tx_pending = none) (now : Time_Stamp) :
    ∃ s', s.choose env now = .ok s' ∧ Scheduled s' ∧ PendingScheduled s' ∧
      s'.in_rx_data = s.in_rx_data ∧
      s'.tx_pending = if s.silence_periods ≠ 0 then none else
        (pick (takes env) none (messages s.buffers (env.count2us now) s.tx_schedule)).map
          Prod.fst := by
  have hp : PendingScheduled s := fun p hp => by rw [hnone] at hp; cases hp
  rw [State.choose]
  by_cases hsilent : s.silence_periods ≠ 0
  · rw [if_pos hsilent, if_pos hsilent]
    exact ⟨_, rfl, h.congr rfl rfl, hp, rfl, hnone⟩
  · rw [if_neg hsilent, if_neg hsilent]
    obtain ⟨s', hs', h', hun, hp'⟩ := h.fetch env (env.count2us now) s.tx_schedule h.remaining hp
      (fun p hp => by rw [hnone] at hp; cases hp)
    obtain ⟨s'', hs'', hpick⟩ := fetch_pick env (p := none) (env.count2us now) s.tx_schedule
       h h.remaining hnone (fun x hx => by cases hx)
    cases hs'.symm.trans hs''
    exact ⟨s', hs', h', hp', hun.in_rx_data, hpick⟩

/-- What `update_tx_schedule` selects. -/
theorem update_tx_schedule_pending (h : Scheduled s) (i : Inputs) :
    ∃ s', s.update_tx_schedule env i = .ok s' ∧
      s'.tx_pending = if s.silence_periods ≠ 0 then none else
        (pick (takes env) none
          (messages s.buffers (env.count2us i.now) s.tx_schedule)).map Prod.fst := by
  rw [State.update_tx_schedule]
  obtain ⟨s₁, hs₁, h₁, hp₁, hquiet₁, hpick⟩ := choose_pending env
    (s := { s with timer := none, in_rx_data := false, in_rx_mf := false, tx_pending := none })
    (h.congr rfl rfl) rfl i.now
  rw [hs₁, Except.ok_bind, ← hpick]
  by_cases hsome : s₁.tx_pending.isSome
  · rw [if_pos hsome]
    obtain ⟨p, hpending⟩ := Option.isSome_iff_exists.mp hsome
    obtain ⟨s', hs', -⟩ := h₁.contend env hpending (hp₁ p hpending) hquiet₁ i
    exact ⟨s', hs', contend_pending hs'⟩
  · rw [if_neg hsome]
    exact ⟨_, rfl, rfl⟩

/-! ## In every order -/

variable (env) in
/-- The pending message with the schedule in some order. -/
def Chooses (s : State Addr Frame) (i : Inputs) (as : List Addr) (p : Option Addr) : Prop :=
  ∃ s', { s with tx_schedule := as }.update_tx_schedule env i = .ok s' ∧ s'.tx_pending = p

variable (env) in
/-- What the node should do with its messages in every order: nothing while it has to be silent or
    has none, and otherwise select one that is best. -/
structure SelectsBest (s : State Addr Frame) (i : Inputs) (l : List (Addr × Buffer Frame)) :
    Prop where
  silent : s.silence_periods ≠ 0 → ∀ as, as.Perm s.tx_schedule → Chooses env s i as none
  nothing : l = [] → ∀ as, as.Perm s.tx_schedule → Chooses env s i as none
  best : s.silence_periods = 0 → l ≠ [] → ∀ as, as.Perm s.tx_schedule →
    ∃ x, Best env l x ∧ Chooses env s i as (some x.1)
  same : ∀ as as', as.Perm s.tx_schedule → as'.Perm s.tx_schedule → ∀ x ∈ l, ∀ x' ∈ l,
    Chooses env s i as (some x.1) → Chooses env s i as' (some x'.1) →
      classOf env x.2 = classOf env x'.2 ∧ key x.2 = key x'.2

/-- One outcome for one schedule. -/
theorem Chooses.unique {i : Inputs} {as : List Addr} {p p' : Option Addr}
    (h : Chooses env s i as p) (h' : Chooses env s i as p') : p = p' := by
  obtain ⟨s₁, hs₁, rfl⟩ := h
  obtain ⟨s₂, hs₂, rfl⟩ := h'
  cases hs₁.symm.trans hs₂
  rfl

omit [DecidableEq Addr] in
/-- The order of the schedule does not matter. -/
theorem Scheduled.perm (h : Scheduled s) {as : List Addr} (hperm : as.Perm s.tx_schedule) :
    Scheduled { s with tx_schedule := as } :=
  ⟨fun b hb => h.live b (hperm.mem_iff.mp hb), hperm.nodup_iff.mpr h.nodup⟩

variable (env) in
/-- The loop chooses what the fold picks. -/
theorem chooses_pick (h : Scheduled s) (i : Inputs) {as : List Addr}
    (hperm : as.Perm s.tx_schedule) :
    Chooses env s i as (if s.silence_periods ≠ 0 then none else
      (pick (takes env) none (messages s.buffers (env.count2us i.now) as)).map Prod.fst) :=
  update_tx_schedule_pending (h.perm hperm) i

/-- The message that is selected is the one that `pick` keeps. -/
theorem pick_of_chooses (h : Scheduled s) {i : Inputs} {as : List Addr}
    (hperm : as.Perm s.tx_schedule)
    (hx : x ∈ messages s.buffers (env.count2us i.now) s.tx_schedule)
    (hchoose : Chooses env s i as (some x.1)) :
    s.silence_periods = 0 ∧
      pick (takes env) none (messages s.buffers (env.count2us i.now) as) = some x := by
  have heq := (chooses_pick env h i hperm).unique hchoose
  by_cases hsilent : s.silence_periods ≠ 0
  · rw [if_pos hsilent] at heq
    cases heq
  · rw [if_neg hsilent] at heq
    obtain ⟨y, hpick, hfst⟩ := Option.map_eq_some_iff.mp heq
    have hy := (messages_perm hperm).mem_iff.mp (mem_of_pick hpick)
    rw [hpick, eq_of_fst hy hx hfst]
    exact ⟨not_not.mp hsilent, rfl⟩

/-- A node that may transmit selects a best message in every order exactly if no ACK and no
    ordinary message has to wait for what is of a worse class. -/
theorem selects_best_iff (h : Scheduled s) (i : Inputs) :
    SelectsBest env s i (messages s.buffers (env.count2us i.now) s.tx_schedule) ↔
      (s.silence_periods = 0 →
        ∀ x, Best env (messages s.buffers (env.count2us i.now) s.tx_schedule) x →
          Separated env (messages s.buffers (env.count2us i.now) s.tx_schedule) x) := by
  constructor
  · intro hselects hactive x hx
    refine (best_in_every_order_iff (List.ne_nil_of_mem hx.mem)).mp ?_ x hx
    intro l' hl'
    -- Every order of the messages is one of the schedule.
    obtain ⟨as, hperm, rfl⟩ := exists_order hl'
    obtain ⟨y, hy, hchoose⟩ := hselects.best hactive (List.ne_nil_of_mem hx.mem) as hperm
    exact ⟨y, (pick_of_chooses h hperm hy.mem hchoose).2, hy⟩
  · intro hseparated
    have hbest : s.silence_periods = 0 →
        ∀ as, as.Perm s.tx_schedule →
          messages s.buffers (env.count2us i.now) s.tx_schedule ≠ [] →
          ∃ x, pick (takes env) none (messages s.buffers (env.count2us i.now) as) = some x ∧
            Best env (messages s.buffers (env.count2us i.now) s.tx_schedule) x :=
      fun hactive as hperm hne =>
        (best_in_every_order_iff hne).mpr (hseparated hactive) _ (messages_perm hperm)
    constructor
    · intro hsilent as hperm
      have hchoose := chooses_pick env h i hperm
      rwa [if_pos hsilent] at hchoose
    · intro hnil as hperm
      have hchoose := chooses_pick env h i hperm
      have hnil' : (messages s.buffers (env.count2us i.now) as).Perm _ := messages_perm hperm
      rw [hnil] at hnil'
      rwa [hnil'.eq_nil, pick_nil, Option.map_none, ite_self] at hchoose
    · intro hactive hne as hperm
      obtain ⟨x, hpick, hx⟩ := hbest hactive as hperm hne
      have hchoose := chooses_pick env h i hperm
      rw [if_neg (not_not.mpr hactive), hpick] at hchoose
      exact ⟨x, hx, hchoose⟩
    · intro as as' hperm hperm' x hx x' hx' hchoose hchoose'
      obtain ⟨hactive, hpick⟩ := pick_of_chooses h hperm hx hchoose
      obtain ⟨-, hpick'⟩ := pick_of_chooses h hperm' hx' hchoose'
      obtain ⟨y, hy, hybest⟩ := hbest hactive as hperm (List.ne_nil_of_mem hx)
      obtain ⟨y', hy', hybest'⟩ := hbest hactive as' hperm' (List.ne_nil_of_mem hx)
      cases hpick.symm.trans hy
      cases hpick'.symm.trans hy'
      exact hybest.unique hybest'

end Loop

/-! ## An ACK behind an ordinary message -/

/-- The buffers of an ordinary message and of an ACK with a deadline. -/
def twoBuffers (deadline : Time_Stamp) : Nat → Option (Buffer Unit)
  | 0 => some { frame := (), deadline := 100 }
  | 1 => some { frame := (), destined_to_me := true, deadline }
  | _ => none

def twoMessages (deadline : Time_Stamp) : State Nat Unit where
  tx_schedule := [0, 1]
  buffers := twoBuffers deadline

/-- The two messages of the example are scheduled. -/
theorem scheduled_twoMessages (deadline : Time_Stamp) : Scheduled (twoMessages deadline) where
  live b hb := by
    have hcases : b = 0 ∨ b = 1 := by simpa [twoMessages] using hb
    cases hcases with
    | inl h => subst h; rfl
    | inr h => subst h; rfl
  nodup := by simp [twoMessages]

/-- Two messages of different deadlines. -/
theorem selects_best_example :
    SelectsBest shortEnv (twoMessages 50) {} (messages (twoBuffers 50) 0 [0, 1]) := by
  refine (selects_best_iff (scheduled_twoMessages 50) {}).mpr fun _ x hx => ?_
  have hcases : x ∈ [(0, { frame := (), deadline := 100 }),
      (1, { frame := (), destined_to_me := true, deadline := 50 })] := hx.mem
  have hle : score shortEnv x.2 ≤ score shortEnv
      { frame := (), destined_to_me := true, deadline := 50 } :=
    hx.le (1, _) (List.mem_cons_of_mem _ (List.mem_singleton.mpr rfl))
  rw [List.mem_cons, List.mem_singleton] at hcases
  cases hcases with
  | inl heq =>
    subst heq
    exact absurd hle (by decide)
  | inr heq =>
    subst heq
    exact ⟨fun _ => by decide, fun _ => Or.inl ⟨_, hx, rfl⟩,
      fun hclass => absurd hclass (by decide)⟩

/-- The ordinary message comes first and has the earlier deadline. -/
theorem not_selects_best :
    ¬ ∀ (s : State Nat Unit) (i : Inputs), Scheduled s →
      SelectsBest shortEnv s i
        (messages s.buffers (shortEnv.count2us i.now) s.tx_schedule) := by
  intro h
  have hselects := h (twoMessages 200) {} (scheduled_twoMessages 200)
  obtain ⟨x, hx, hchoose⟩ := hselects.best rfl (List.cons_ne_nil _ _) [0, 1] (List.Perm.refl _)
  obtain ⟨-, hpick⟩ :=
    pick_of_chooses (scheduled_twoMessages 200) (List.Perm.refl _) hx.mem hchoose
  have hfirst : x = (0, { frame := (), deadline := 100 }) := (Option.some.inj hpick).symm
  subst hfirst
  have hle := hx.le (1, { frame := (), destined_to_me := true, deadline := 200 })
    (List.mem_cons_of_mem _ (List.mem_singleton.mpr rfl))
  exact absurd hle (by decide)

end TSTP.MAC

end Epos
