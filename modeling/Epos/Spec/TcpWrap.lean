import Epos.Spec.TcpAcceptability

/-!
# Sequence numbers near the wrap

The tests of a segment's number compare unsigned numbers and a sum that wraps. Old segments
never pass both of them. The segment that is expected passes exactly while the end of the
window stays below 2^32; behind that, a connection gets nothing any more.
-/

namespace Epos

namespace TCP

namespace Connection

/-- `check_sequence()` with another `Traits<TCP>::WINDOW`. -/
def checkSequenceIn (c : Connection) (window : Nat) (g : Received) : Bool :=
  let rcvNext := c.acknowledgment
  let inside (n : Nat) : Bool := rcvNext ≤ n && n < (rcvNext + window) % 2 ^ 32
  if window = 0 then c.length = 0 && g.sequence = rcvNext
  else if c.length ≠ 0 then inside g.sequence
  else inside g.sequence || inside (subUnsigned (g.sequence + c.length) 1)

/-- The ordering test in `update`, and `check_sequence()` in the handler. -/
def PassesIn (c : Connection) (window : Nat) (g : Received) : Prop :=
  ¬c.Early g ∧ (c.opened g).checkSequenceIn window g = true

/-- The number lies before `RCV.NXT`, by less than half of all numbers and by no less than
    the length of the data. -/
def OldData (c : Connection) (g : Received) : Prop :=
  0 < subUnsigned c.acknowledgment g.sequence ∧
    subUnsigned c.acknowledgment g.sequence < 2 ^ 31 ∧
    g.length ≤ subUnsigned c.acknowledgment g.sequence

/-- The tests let the expected segment through, and no old one. -/
def OrdersSegments (c : Connection) (window : Nat) : Prop :=
  ∀ g : Received, g.sequence < 2 ^ 32 → g.length < 2 ^ 32 →
    (g.sequence = c.acknowledgment → c.PassesIn window g) ∧ (c.OldData g → ¬c.PassesIn window g)

variable {c : Connection} {g : Received} {window : Nat}

theorem checkSequenceIn_WINDOW : c.checkSequenceIn WINDOW g = c.checkSequence g := rfl

/-! ## The tests -/

/-- A handler finds `RCV.NXT` as it was, and the length of the segment. -/
theorem checkSequenceIn_opened :
    (c.opened g).checkSequenceIn window g =
      ({ c with length := g.length } : Connection).checkSequenceIn window g := by
  obtain ⟨peer, toPort, hopened⟩ := opened_eq c g
  rw [hopened]
  rfl

/-- With a positive window, only a number from `RCV.NXT` on passes: that of the segment, or
    without data the one before. -/
theorem le_of_checkSequenceIn (hpos : 0 < window) (h : c.checkSequenceIn window g = true) :
    c.acknowledgment ≤ g.sequence ∧ g.sequence < (c.acknowledgment + window) % 2 ^ 32 ∨
      c.length = 0 ∧ c.acknowledgment ≤ subUnsigned g.sequence 1 ∧
        subUnsigned g.sequence 1 < (c.acknowledgment + window) % 2 ^ 32 := by
  unfold checkSequenceIn at h
  rw [if_neg hpos.ne'] at h
  by_cases hlen : c.length = 0
  · simp only [hlen, ne_eq, not_true_eq_false, ↓reduceIte, Nat.add_zero, Bool.or_eq_true,
      Bool.and_eq_true, decide_eq_true_eq] at h
    exact h.imp_right fun hbefore => ⟨hlen, hbefore⟩
  · simp only [hlen, ne_eq, not_false_eq_true, ↓reduceIte, Bool.and_eq_true,
      decide_eq_true_eq] at h
    exact .inl h

theorem checkSequenceIn_expected (hpos : 0 < window) (hend : c.acknowledgment + window < 2 ^ 32)
    (hseq : g.sequence = c.acknowledgment) : c.checkSequenceIn window g = true := by
  unfold checkSequenceIn
  have hinside : c.acknowledgment < (c.acknowledgment + window) % 2 ^ 32 := by
    rw [Nat.mod_eq_of_lt hend]
    omega
  rw [if_neg hpos.ne']
  simp only [hseq, le_refl, hinside, decide_true, Bool.and_self, Bool.true_or, ite_self]

/-- An old number is below `RCV.NXT`, unless it is dropped for being above. -/
theorem OldData.lt (h : c.OldData g) (hle : g.sequence ≤ c.acknowledgment) :
    g.sequence < c.acknowledgment := by
  refine lt_of_le_of_ne hle fun heq => ?_
  have hpos := h.1
  rw [heq, subUnsigned_self] at hpos
  exact absurd hpos (by decide)

theorem OldData.not_passesIn (h : c.OldData g) (hs : c.Synchronised) (hpos : 0 < window)
    (hseq : g.sequence < 2 ^ 32) : ¬c.PassesIn window g := by
  rintro ⟨hearly, hcheck⟩
  have hle : g.sequence ≤ c.acknowledgment := by
    by_contra hgt
    exact hearly ⟨fun hopen => hopen.elim hs.1 hs.2.1, by omega⟩
  have hbefore := h.lt hle
  rw [checkSequenceIn_opened] at hcheck
  have hone := subUnsigned_one_eq hseq
  have hend : (c.acknowledgment + window) % 2 ^ 32 < 2 ^ 32 := Nat.mod_lt _ (by decide)
  cases le_of_checkSequenceIn hpos hcheck with
  | inl hinside => exact absurd hinside.1 (by simpa using hbefore)
  | inr hinside =>
    obtain ⟨-, hfrom, hto⟩ := hinside
    dsimp only at hfrom hto
    rw [hone] at hfrom hto
    -- the number before zero is the last one, which no window contains
    split at hfrom
    · rename_i hzero
      rw [if_pos hzero] at hto
      omega
    · omega

theorem passesIn_of_eq (hpos : 0 < window)
    (hend : c.acknowledgment + window < 2 ^ 32) (hseq : g.sequence = c.acknowledgment) :
    c.PassesIn window g := by
  refine ⟨fun hearly => ?_, ?_⟩
  · have hlt := hearly.2
    omega
  · rw [checkSequenceIn_opened]
    exact checkSequenceIn_expected hpos hend hseq

/-- A segment with the number that is expected. -/
def expected (c : Connection) : Received :=
  ⟨c.peer, c.toPort, c.fromPort, c.acknowledgment, 0, 0, 0, 1, [0]⟩

/-- At the end of the numbers, the end of the window is below its start. -/
theorem not_passesIn_expected (hlt : c.acknowledgment < 2 ^ 32) (hpos : 0 < window)
    (hwindow : window < 2 ^ 32) (hend : 2 ^ 32 ≤ c.acknowledgment + window) :
    ¬c.PassesIn window c.expected := by
  rintro ⟨-, hcheck⟩
  rw [checkSequenceIn_opened] at hcheck
  have hwrap : (c.acknowledgment + window) % 2 ^ 32 = c.acknowledgment + window - 2 ^ 32 := by
    rw [Nat.mod_eq_sub_mod hend, Nat.mod_eq_of_lt (by omega)]
  cases le_of_checkSequenceIn hpos hcheck with
  | inl hinside =>
    have hto := hinside.2
    dsimp only [expected] at hto
    omega
  | inr hinside => exact absurd hinside.1 Nat.one_ne_zero

/-! ## Behind the last window -/

/-- Neither the state nor what has been received moves, up to a reset. -/
structure Stuck (c r : Connection) : Prop where
  synchronised : r.Synchronised ∨ r.state = .CLOSED
  acknowledgment : r.acknowledgment = c.acknowledgment
  delivered : r.delivered = c.delivered

/-- No handler takes anything from a segment. -/
theorem handler_stuck (ok : Bool) (hs : c.Synchronised ∨ c.state = .CLOSED)
    (hend : 2 ^ 32 ≤ c.acknowledgment + WINDOW) (hlt : c.acknowledgment < 2 ^ 32) :
    c.Stuck (c.handler ok g) ∧
      ((c.handler ok g).valid = false ∨ State.delivers c.state = false) := by
  cases hs with
  | inl hsynced =>
    have hsynced' : ({ c with valid := false } : Connection).Synchronised := hsynced
    rw [handler_invalid ok hsynced (checkSequence_wrapped hend hlt)]
    split
    · exact ⟨⟨.inl hsynced', rfl, rfl⟩, .inl rfl⟩
    · exact ⟨⟨.inl hsynced', rfl, rfl⟩, .inl rfl⟩
  | inr hclosed =>
    have hnone : c.handler ok g = c := by
      unfold handler
      rw [hclosed]
    rw [hnone]
    exact ⟨⟨.inr hclosed, rfl, rfl⟩, .inr (by rw [hclosed]; rfl)⟩

theorem Stuck.update {r : Connection} (h : c.Stuck r) (ok : Bool) (g : Received)
    (hend : 2 ^ 32 ≤ c.acknowledgment + WINDOW) (hlt : c.acknowledgment < 2 ^ 32) :
    c.Stuck (r.update ok g) := by
  by_cases hearly : r.Early g
  · -- the ordering test drops the segment
    obtain ⟨peer, toPort, harrive⟩ := arrive_eq r g
    rw [update_early ok hearly, harrive]
    exact ⟨h.synchronised, h.acknowledgment, h.delivered⟩
  · by_cases hnext : r.next < g.acknowledgment
    · -- what acknowledges too much closes the connection
      obtain ⟨peer, toPort, harrive⟩ := arrive_eq r g
      rw [update_beyond ok hearly hnext, harrive]
      exact ⟨.inr rfl, h.acknowledgment, h.delivered⟩
    · -- the handler finds `RCV.NXT` as it was, and its test fails
      obtain ⟨relevant, hupdate⟩ := update_handled ok hearly hnext
      obtain ⟨peer, toPort, hopened⟩ := opened_eq r g
      have hstate : (r.opened g).state = r.state := by rw [hopened]
      have hack : (r.opened g).acknowledgment = c.acknowledgment := by
        rw [hopened]
        exact h.acknowledgment
      have hdelivered : (r.opened g).delivered = c.delivered := by
        rw [hopened]
        exact h.delivered
      have hsynced : (r.opened g).Synchronised ∨ (r.opened g).state = .CLOSED := by
        unfold Synchronised
        rw [hstate]
        exact h.synchronised
      obtain ⟨hstuck, hsilent⟩ :=
        handler_stuck (g := g) ok hsynced (by rwa [hack]) (by rwa [hack])
      obtain ⟨streamSignal, hfinish⟩ := finish_eq ((r.opened g).handler ok g) r.state relevant g
      rw [hupdate, hfinish]
      refine ⟨hstuck.synchronised, hstuck.acknowledgment.trans hack, ?_⟩
      rw [hstate] at hsilent
      -- so nothing is handed over behind it
      have hnotified : (((r.opened g).handler ok g).valid && (State.delivers r.state &&
          ((r.opened g).handler ok g).length != 0)) = false := by
        cases hsilent with
        | inl hinvalid => rw [hinvalid, Bool.false_and]
        | inr hstate => rw [hstate, Bool.false_and, Bool.and_false]
      dsimp only
      rw [hnotified]
      exact hstuck.delivered.trans hdelivered

/-- No number of segments moves a connection whose window has wrapped. -/
theorem stuck_run (hs : c.Synchronised) (hend : 2 ^ 32 ≤ c.acknowledgment + WINDOW)
    (hlt : c.acknowledgment < 2 ^ 32) (segments : List (Bool × Received)) :
    c.Stuck (segments.foldl (fun r s => r.update s.1 s.2) c) := by
  have hrun (r : Connection) (h : c.Stuck r) :
      c.Stuck (segments.foldl (fun r s => r.update s.1 s.2) r) := by
    induction segments generalizing r with
    | nil => exact h
    | cons s rest ih => exact ih _ (h.update s.1 s.2 hend hlt)
  exact hrun c ⟨.inl hs, rfl, rfl⟩

end Connection

open Connection

variable {c : Connection} {window : Nat}

/-- The tests order segments exactly while the end of the window has not wrapped. -/
theorem orders_segments_iff (hs : c.Synchronised) (hlt : c.acknowledgment < 2 ^ 32)
    (hpos : 0 < window) (hwindow : window < 2 ^ 32) :
    c.OrdersSegments window ↔ c.acknowledgment + window < 2 ^ 32 := by
  constructor
  · intro h
    by_contra hend
    have hone : c.expected.length < 2 ^ 32 := show 1 < 2 ^ 32 by decide
    have hpasses := (h c.expected hlt hone).1 rfl
    exact not_passesIn_expected hlt hpos hwindow (by omega) hpasses
  · intro hend g hseq _
    exact ⟨passesIn_of_eq hpos hend, fun hold => hold.not_passesIn hs hpos hseq⟩

/-- A connection that has got everything up to a number. -/
def establishedAt (n : Nat) : Connection where
  fromPort := 0
  toPort := 0
  sequence := 0
  peer := Address.null
  next := 0
  unacknowledged := 0
  initial := 0
  acknowledgment := n
  state := .ESTABLISHED

theorem orders_segments_example : (establishedAt 1000).OrdersSegments WINDOW :=
  (orders_segments_iff (c := establishedAt 1000) ⟨nofun, nofun, nofun⟩ (by decide) (by decide)
    (by decide)).2 (by decide)

/-- The last number is expected, and the segment with it fails `check_sequence()`. -/
theorem not_orders_segments :
    ¬∀ (c : Connection) (window : Nat), c.Synchronised → c.acknowledgment < 2 ^ 32 →
      0 < window → window < 2 ^ 32 → c.OrdersSegments window := by
  intro h
  have horders := h (establishedAt (2 ^ 32 - 1)) WINDOW ⟨nofun, nofun, nofun⟩ (by decide)
    (by decide) (by decide)
  exact not_passesIn_expected (by decide) (by decide) (by decide) (by decide)
    ((horders (expected _) (by decide) (by decide)).1 rfl)

end TCP

end Epos
