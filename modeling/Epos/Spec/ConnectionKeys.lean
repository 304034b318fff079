import Epos.Network.Tcp

/-!
# Connection identifiers

The identifier of a connection has the ports in its lower half and the address of the
peer in its upper one. Each half is computed as an `int`, and the sign of the one with
the ports, the highest bit of the remote port, covers the address.
-/

namespace Epos

namespace TCP

variable {l l' r r' : Port} {p p' : IP.Address}

/-- The address as a word, the first byte highest. -/
def addressWord (p : IP.Address) : BitVec 32 :=
  (p 0).toBitVec.setWidth 32 <<< 24 ||| (p 1).toBitVec.setWidth 32 <<< 16 |||
    (p 2).toBitVec.setWidth 32 <<< 8 ||| (p 3).toBitVec.setWidth 32

/-- The ports as a word, the remote one above the local one. -/
def portsWord (l r : Port) : BitVec 32 := r.setWidth 32 <<< 16 ||| l.setWidth 32

theorem getLsbD_addressWord (p : IP.Address) (i : Nat) : (addressWord p).getLsbD i =
    if i < 8 then (p 3).toBitVec.getLsbD i
    else if i < 16 then (p 2).toBitVec.getLsbD (i - 8)
    else if i < 24 then (p 1).toBitVec.getLsbD (i - 16)
    else (p 0).toBitVec.getLsbD (i - 24) := by
  -- a byte has no bit from the eighth on
  have hhigh (b : BitVec 8) (j : Nat) (hj : 8 ≤ j) : b.getLsbD j = false :=
    BitVec.getLsbD_of_ge b j hj
  unfold addressWord
  simp only [BitVec.getLsbD_or, BitVec.getLsbD_shiftLeft, BitVec.getLsbD_setWidth]
  -- byte by byte, the last one first
  by_cases h8 : i < 8
  · have h32 : i < 32 := by omega
    have h16 : i < 16 := by omega
    have h24 : i < 24 := by omega
    simp [h8, h16, h24, h32]
  · have hlow := hhigh (p 3).toBitVec i (by omega)
    rw [if_neg h8, hlow]
    by_cases h16 : i < 16
    · have h32 : i < 32 := by omega
      have h24 : i < 24 := by omega
      have hsub : i - 8 < 32 := by omega
      simp [h8, h16, h24, h32, hsub]
    · have hlow := hhigh (p 2).toBitVec (i - 8) (by omega)
      rw [if_neg h16, hlow]
      by_cases h24 : i < 24
      · have h32 : i < 32 := by omega
        have hsub : i - 16 < 32 := by omega
        simp [h16, h24, h32, hsub]
      · have hlow := hhigh (p 1).toBitVec (i - 16) (by omega)
        rw [if_neg h24, hlow]
        by_cases h32 : i < 32
        · have hsub : i - 24 < 32 := by omega
          simp [h24, h32, hsub]
        · have htop := hhigh (p 0).toBitVec (i - 24) (by omega)
          simp [htop]

theorem getLsbD_portsWord (l r : Port) (i : Nat) :
    (portsWord l r).getLsbD i = if i < 16 then l.getLsbD i else r.getLsbD (i - 16) := by
  unfold portsWord
  simp only [BitVec.getLsbD_or, BitVec.getLsbD_shiftLeft, BitVec.getLsbD_setWidth]
  by_cases h16 : i < 16
  · have h32 : i < 32 := by omega
    simp [h16, h32]
  · have hl : l.getLsbD i = false := BitVec.getLsbD_of_ge l i (by omega)
    rw [if_neg h16, hl]
    by_cases h32 : i < 32
    · have hsub : i - 16 < 32 := by omega
      simp [h16, h32, hsub]
    · have hr : r.getLsbD (i - 16) = false := BitVec.getLsbD_of_ge r _ (by omega)
      simp [hr]

theorem addressWord_inj : addressWord p = addressWord p' ↔ p = p' := by
  constructor
  · intro h
    have hbit (i : Nat) := congrArg (·.getLsbD i) h
    simp only [getLsbD_addressWord] at hbit
    funext k
    apply UInt8.eq_of_toBitVec_eq
    apply BitVec.eq_of_getLsbD_eq
    intro i hi
    -- where the bit of the byte `k` stands in the word
    match k with
    | 0 =>
      have h24 := hbit (i + 24)
      rw [if_neg (by omega), if_neg (by omega), if_neg (by omega), if_neg (by omega),
        if_neg (by omega), if_neg (by omega), Nat.add_sub_cancel] at h24
      exact h24
    | 1 =>
      have h16 := hbit (i + 16)
      rw [if_neg (by omega), if_neg (by omega), if_pos (by omega), if_neg (by omega),
        if_neg (by omega), if_pos (by omega), Nat.add_sub_cancel] at h16
      exact h16
    | 2 =>
      have h8 := hbit (i + 8)
      rw [if_neg (by omega), if_pos (by omega), if_neg (by omega), if_pos (by omega),
        Nat.add_sub_cancel] at h8
      exact h8
    | 3 =>
      have h0 := hbit i
      rw [if_pos (by omega), if_pos (by omega)] at h0
      exact h0
  · exact fun h => h ▸ rfl

theorem portsWord_inj : portsWord l r = portsWord l' r' ↔ l = l' ∧ r = r' := by
  constructor
  · intro h
    have hbit (i : Nat) := congrArg (·.getLsbD i) h
    simp only [getLsbD_portsWord] at hbit
    constructor
    · apply BitVec.eq_of_getLsbD_eq
      intro i hi
      have hi' := hbit i
      rwa [if_pos hi, if_pos hi] at hi'
    · apply BitVec.eq_of_getLsbD_eq
      intro i hi
      have hi' := hbit (i + 16)
      rwa [if_neg (by omega), if_neg (by omega), Nat.add_sub_cancel] at hi'
  · exact fun h => h.1 ▸ h.2 ▸ rfl

theorem msb_portsWord (l r : Port) : (portsWord l r).msb = r.msb := by
  rw [BitVec.msb_eq_getLsbD_last, getLsbD_portsWord, BitVec.msb_eq_getLsbD_last]
  rfl

/-- Below 32 the bits of the ports; above, those of the address or of the sign. -/
theorem getLsbD_connectionId (l r : Port) (p : IP.Address) (i : Nat) :
    (connectionId l r p).getLsbD i =
      if i < 32 then (portsWord l r).getLsbD i
      else decide (i < 64) && ((addressWord p).getLsbD (i - 32) || r.msb) := by
  have hid : connectionId l r p =
      (addressWord p).signExtend 64 <<< 32 ||| (portsWord l r).signExtend 64 := rfl
  rw [hid, BitVec.getLsbD_or, BitVec.getLsbD_shiftLeft, BitVec.getLsbD_signExtend,
    BitVec.getLsbD_signExtend, msb_portsWord]
  by_cases h32 : i < 32
  · have h64 : i < 64 := by omega
    simp [h32, h64]
  · by_cases h64 : i < 64
    · have hsub : i - 32 < 32 := by omega
      have hsub' : i - 32 < 64 := by omega
      simp [h32, h64, hsub, hsub']
    · simp [h32, h64]

/-- Two identifiers agree if the ports do, and the addresses too unless the sign covers
    them. -/
theorem connectionId_eq_iff : connectionId l r p = connectionId l' r' p' ↔
    l = l' ∧ r = r' ∧ (r.msb = true ∨ p = p') := by
  constructor
  · intro h
    -- the lower half has both ports, the upper half the address unless the sign fills it
    have hbit (i : Nat) := congrArg (·.getLsbD i) h
    simp only [getLsbD_connectionId] at hbit
    have hports : portsWord l r = portsWord l' r' := by
      apply BitVec.eq_of_getLsbD_eq
      intro i hi
      have hi' := hbit i
      rwa [if_pos hi, if_pos hi] at hi'
    obtain ⟨rfl, rfl⟩ := portsWord_inj.mp hports
    refine ⟨rfl, rfl, ?_⟩
    by_cases hsign : r.msb = true
    · exact .inl hsign
    · refine .inr (addressWord_inj.mp ?_)
      apply BitVec.eq_of_getLsbD_eq
      intro i hi
      have hi' := hbit (i + 32)
      have h64 : i + 32 < 64 := by omega
      rw [if_neg (by omega), if_neg (by omega), Nat.add_sub_cancel] at hi'
      simpa [h64, hsign] using hi'
  · intro ⟨hl, hr, hp⟩
    subst hl hr
    -- a negative port fills the upper half with ones
    cases hp with
    | inl hsign =>
      apply BitVec.eq_of_getLsbD_eq
      intro i _
      rw [getLsbD_connectionId, getLsbD_connectionId, hsign]
      simp
    | inr hp => rw [hp]

theorem msb_port (r : Port) : r.msb = true ↔ 0x8000 ≤ r.toNat := by
  rw [BitVec.msb_eq_decide]
  exact decide_eq_true_iff

/-- The triple that a connection is for. -/
def Connection.IsFor (c : Connection) (l r : Port) (p : IP.Address) : Prop :=
  c.fromPort = l ∧ c.toPort = r ∧ c.peer = p

end TCP

open TCP

/-- Both forms of the identifier agree, and they tell the connection from another triple
    unless only the peers differ and the remote port is 0x8000 or more. -/
theorem connectionId_separates_iff (c : Connection) (l r : Port) (p : IP.Address) :
    c.id = connectionId c.fromPort c.toPort c.peer ∧
      ((c.id = connectionId l r p ↔ c.IsFor l r p) ↔
        ¬(c.fromPort = l ∧ c.toPort = r ∧ 0x8000 ≤ r.toNat ∧ c.peer ≠ p)) := by
  have hid : c.id = connectionId c.fromPort c.toPort c.peer := rfl
  refine ⟨hid, ?_⟩
  rw [hid, connectionId_eq_iff, msb_port, Connection.IsFor]
  by_cases hl : c.fromPort = l
  · by_cases hr : c.toPort = r
    · subst hr
      by_cases hp : c.peer = p
      · simp [hl, hp]
      · simp [hl, hp]
    · simp [hr]
  · simp [hl]

/-- A connection from port 80 to the port 40000 of the peer 10.0.0.`host`. -/
def connectionTo (host : UInt8) : Connection where
  fromPort := 80
  toPort := 40000
  sequence := 0
  peer i := if i = 0 then 10 else if i = 3 then host else 0
  next := 0
  unacknowledged := 0
  initial := 0

/-- The peers 10.0.0.1 and 10.0.0.2 get one identifier for these ports. -/
theorem not_connectionId_separates :
    (connectionTo 1).id = connectionId 80 40000 (connectionTo 2).peer ∧
      ¬(connectionTo 1).IsFor 80 40000 (connectionTo 2).peer := by
  have hid : (connectionTo 1).id = connectionId 80 40000 (connectionTo 1).peer := rfl
  rw [hid, connectionId_eq_iff]
  refine ⟨⟨rfl, rfl, .inl (by decide)⟩, fun h => ?_⟩
  exact absurd (congrFun h.2.2 3) (by decide)

end Epos
