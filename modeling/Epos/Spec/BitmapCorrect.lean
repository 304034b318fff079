import Epos.Kernel.Bitmap

/-!
# Bitmaps as sets

A bitmap is the set of the indices whose bit is set. With all of its words there, no
operation leaves `_map`: `set` because it compares the index with the size, `full` as
long as it is not asked about more bits than there are.
-/

namespace Epos

namespace Bitmap

variable {b b' : Bitmap} {i j n index upto : Nat} {word : BitVec 32}

def Has (b : Bitmap) (i : Nat) : Prop :=
  ∃ word, b.map[i / 32]? = some word ∧ word.getLsbD (i % 32) = true

/-- There is a word for every bit. -/
def Whole (b : Bitmap) : Prop := b.map.length = (b.bits + 31) / 32

/-- A new bitmap has all its words. -/
theorem whole_init {n : Nat} (h : n + 31 < 2 ^ 32) : (init n).Whole := by
  unfold Whole init
  rw [List.length_replicate, Nat.mod_eq_of_lt h]

/-- None of its bits is set. -/
theorem not_has_init (n i : Nat) : ¬(init n).Has i := by
  intro ⟨word, hword, hbit⟩
  simp only [init, List.getElem?_replicate] at hword
  split at hword
  · cases hword
    simp at hbit
  · cases hword

/-- Every bit is in a word. -/
theorem Whole.exists_word (h : b.Whole) (hi : i < b.bits) : ∃ word, b.map[i / 32]? = some word := by
  have hlt : i / 32 < b.map.length := by
    rw [h]
    omega
  exact ⟨_, List.getElem?_eq_getElem hlt⟩

/-- A bit is set if it is in its word. -/
theorem has_iff (h : b.map[i / 32]? = some word) : b.Has i ↔ word.getLsbD (i % 32) = true := by
  constructor
  · intro ⟨w, hw, hbit⟩
    cases h.symm.trans hw
    exact hbit
  · exact fun hbit => ⟨word, h, hbit⟩

/-! ## `set` -/

/-- The mask of a bit. -/
theorem getLsbD_bit (index : Nat) (j : Nat) :
    (bit index).getLsbD j = decide (j = index % 32) := by
  have hlt : index % 32 < 32 := Nat.mod_lt _ (by decide)
  unfold bit
  rw [BitVec.getLsbD_shiftLeft, BitVec.getLsbD_one]
  by_cases hj : j = index % 32
  · subst hj
    simp [hlt]
  · have hne : j < index % 32 ∨ ¬j - index % 32 = 0 := by omega
    cases hne with
    | inl h => simp [h, hj]
    | inr h => simp [h, hj]

/-- The test of a bit. -/
theorem and_bit_eq_zero (word : BitVec 32) (index : Nat) :
    word &&& bit index = 0 ↔ ¬word.getLsbD (index % 32) = true := by
  have hlt : index % 32 < 32 := Nat.mod_lt _ (by decide)
  constructor
  · intro h hbit
    have hz : (word &&& bit index).getLsbD (index % 32) = false := by rw [h]; simp
    rw [BitVec.getLsbD_and, hbit, getLsbD_bit] at hz
    simp at hz
  · intro h
    apply BitVec.eq_of_getLsbD_eq
    intro j hj
    rw [BitVec.getLsbD_and, getLsbD_bit]
    by_cases hji : j = index % 32
    · subst hji
      simpa using h
    · simp [hji]

/-- One word is written. -/
theorem has_write (hword : b.map[index / 32]? = some word) (new : BitVec 32) (j : Nat) :
    ({ b with map := b.map.set (index / 32) new } : Bitmap).Has j ↔
      if j / 32 = index / 32 then new.getLsbD (j % 32) = true else b.Has j := by
  have hlt : index / 32 < b.map.length := (List.getElem?_eq_some_iff.mp hword).1
  split
  · next hsame =>
    apply has_iff
    show (b.map.set (index / 32) new)[j / 32]? = some new
    rw [hsame, List.getElem?_set_self hlt]
  · next hother =>
    unfold Has
    rw [List.getElem?_set_ne fun heq => hother heq.symm]

/-- A word may be written. -/
theorem Whole.write (h : b.Whole) (k : Nat) (new : BitVec 32) :
    ({ b with map := b.map.set k new } : Bitmap).Whole :=
  List.length_set.trans h

/-- `set` tells whether the index is new and adds it. -/
theorem Whole.set (h : b.Whole) (hi : index < b.bits) :
    ∃ fresh b', b.set index = some (fresh, b') ∧ (fresh = true ↔ ¬b.Has index) ∧ b'.Whole ∧
      b'.bits = b.bits ∧ ∀ j, b'.Has j ↔ j = index ∨ b.Has j := by
  obtain ⟨word, hword⟩ := h.exists_word hi
  have hhas := has_iff hword
  unfold Bitmap.set
  simp only [if_pos hi, hword, Option.bind_eq_bind, Option.bind_some]
  -- the bit is set already, and nothing is written
  by_cases hbit : word.getLsbD (index % 32) = true
  · rw [if_neg (mt (and_bit_eq_zero word index).mp (not_not.mpr hbit))]
    refine ⟨false, b, rfl, by simp [hhas, hbit], h, rfl, fun j => ?_⟩
    constructor
    · exact .inr
    · intro hj
      cases hj with
      | inl heq => exact heq ▸ hhas.mpr hbit
      | inr hj => exact hj
  · -- the bit is set now, and the others of its word stay
    rw [if_pos ((and_bit_eq_zero word index).mpr hbit)]
    refine ⟨true, _, rfl, by simp [hhas, hbit], h.write _ _, rfl, fun j => ?_⟩
    rw [has_write hword]
    split
    · next hsame =>
      have hold : b.map[j / 32]? = some word := by rw [hsame, hword]
      have hj : j = index ↔ j % 32 = index % 32 := by omega
      rw [has_iff hold, BitVec.getLsbD_or, getLsbD_bit, hj]
      simp [or_comm]
    · next hother =>
      have hj : j ≠ index := fun heq => hother (heq ▸ rfl)
      simp [hj]

/-! ## `reset` -/

/-- `reset` tells whether the index is there and takes it away. -/
theorem Whole.reset (h : b.Whole) (hi : index < b.bits) :
    ∃ found b', b.reset index = some (found, b') ∧ (found = true ↔ b.Has index) ∧ b'.Whole ∧
      b'.bits = b.bits ∧ ∀ j, b'.Has j ↔ j ≠ index ∧ b.Has j := by
  obtain ⟨word, hword⟩ := h.exists_word hi
  have hhas := has_iff hword
  unfold Bitmap.reset
  simp only [if_pos hi, hword, Option.bind_eq_bind, Option.bind_some, ne_eq]
  -- the bit is cleared now, and the others of its word stay
  by_cases hbit : word.getLsbD (index % 32) = true
  · rw [if_pos (mt (and_bit_eq_zero word index).mp (not_not.mpr hbit))]
    refine ⟨true, _, rfl, by simp [hhas, hbit], h.write _ _, rfl, fun j => ?_⟩
    rw [has_write hword]
    split
    · next hsame =>
      have hlt : j % 32 < 32 := Nat.mod_lt _ (by decide)
      have hold : b.map[j / 32]? = some word := by rw [hsame, hword]
      have hj : j = index ↔ j % 32 = index % 32 := by omega
      rw [has_iff hold, BitVec.getLsbD_and, BitVec.getLsbD_not, getLsbD_bit, hj]
      simp [hlt, and_comm]
    · next hother =>
      have hj : j ≠ index := fun heq => hother (heq ▸ rfl)
      simp [hj]
  · -- the bit was not set, and nothing is written
    rw [if_neg (not_not.mpr ((and_bit_eq_zero word index).mpr hbit))]
    refine ⟨false, b, rfl, by simp [hhas, hbit], h, rfl, fun j => ?_⟩
    constructor
    · intro hj
      refine ⟨fun heq => hbit (hhas.mp (heq ▸ hj)), hj⟩
    · exact fun hj => hj.2

/-! ## `full` -/

/-- A full word has all bits. -/
theorem eq_allOnes_iff : word = BitVec.allOnes 32 ↔ ∀ j < 32, word.getLsbD j = true := by
  constructor
  · intro h j hj
    rw [h, BitVec.getLsbD_allOnes]
    exact decide_eq_true hj
  · intro h
    apply BitVec.eq_of_getLsbD_eq
    intro j hj
    rw [h j hj, BitVec.getLsbD_allOnes]
    exact (decide_eq_true hj).symm

/-- The loop goes over `n` words from the word `i` on, if there are as many. -/
theorem fullWords_eq (h : i + n ≤ b.map.length) :
    ∃ r, b.fullWords i n = some r ∧
      (r = true ↔ ∀ j, 32 * i ≤ j → j < 32 * (i + n) → b.Has j) := by
  induction n generalizing i with
  | zero =>
    refine ⟨true, rfl, fun _ j hle hlt => ?_, fun _ => rfl⟩
    omega
  | succ n ih =>
    obtain ⟨word, hword⟩ : ∃ word, b.map[i]? = some word :=
      ⟨_, List.getElem?_eq_getElem (by omega)⟩
    obtain ⟨r, hr, hiff⟩ := ih (i := i + 1) (by omega)
    -- the bits of the word `i`
    have hthis : word = BitVec.allOnes 32 ↔ ∀ j, j / 32 = i → b.Has j := by
      rw [eq_allOnes_iff]
      constructor
      · intro hall j hj
        subst hj
        exact (has_iff hword).mpr (hall _ (Nat.mod_lt _ (by decide)))
      · intro hall j hj
        have hdiv : (32 * i + j) / 32 = i := by omega
        have hmod : (32 * i + j) % 32 = j := by omega
        have hbit := (has_iff (i := 32 * i + j) (hdiv.symm ▸ hword)).mp (hall _ hdiv)
        rwa [hmod] at hbit
    simp only [fullWords, hword, Option.bind_eq_bind, Option.bind_some]
    by_cases hw : word = BitVec.allOnes 32
    · rw [if_pos hw]
      refine ⟨r, hr, hiff.trans ⟨fun hall j hle hlt => ?_, fun hall j hle hlt => ?_⟩⟩
      · by_cases hj : j / 32 = i
        · exact hthis.mp hw j hj
        · exact hall j (by omega) (by omega)
      · exact hall j (by omega) (by omega)
    · rw [if_neg hw]
      refine ⟨false, rfl, by simp, fun hall => absurd (hthis.mpr fun j hj => ?_) hw⟩
      exact hall j (by omega) (by omega)

/-- The mask of the bits in front. -/
theorem getLsbD_mask (upto j : Nat) : (bit upto - 1).getLsbD j = decide (j < upto % 32) := by
  have hlt : upto % 32 < 32 := Nat.mod_lt _ (by decide)
  have hpow : 2 ^ (upto % 32) < 2 ^ 32 := Nat.pow_lt_pow_right (by decide) hlt
  have hpos : 0 < 2 ^ (upto % 32) := Nat.two_pow_pos _
  have hbit : (bit upto).toNat = 2 ^ (upto % 32) := by
    unfold bit
    rw [BitVec.toNat_shiftLeft, Nat.shiftLeft_eq]
    simpa using Nat.mod_eq_of_lt hpow
  have hone : (1 : BitVec 32).toNat = 1 := rfl
  have hmask : (bit upto - 1).toNat = 2 ^ (upto % 32) - 1 := by
    rw [BitVec.toNat_sub, hbit, hone]
    omega
  rw [← BitVec.testBit_toNat, hmask, Nat.testBit_two_pow_sub_one]

/-- The test of the bits in front. -/
theorem or_not_mask_eq_allOnes (word : BitVec 32) (upto : Nat) :
    word ||| ~~~(bit upto - 1) = BitVec.allOnes 32 ↔
      ∀ j < upto % 32, word.getLsbD j = true := by
  rw [eq_allOnes_iff]
  constructor
  · intro hall j hj
    have hj32 : j < 32 := by omega
    have hbit := hall j hj32
    rw [BitVec.getLsbD_or, BitVec.getLsbD_not, getLsbD_mask] at hbit
    simpa [hj32, hj] using hbit
  · intro hall j hj
    rw [BitVec.getLsbD_or, BitVec.getLsbD_not, getLsbD_mask]
    by_cases hlt : j < upto % 32
    · simp [hall j hlt]
    · simp [hlt, hj]

/-- `full` tells whether the first `upto` indices are in the set. -/
theorem Whole.full (h : b.Whole) (hupto : upto ≤ b.bits) :
    ∃ r, b.full upto = some r ∧ (r = true ↔ ∀ i < upto, b.Has i) := by
  have hlen : 0 + upto / 32 ≤ b.map.length := by
    rw [h]
    omega
  obtain ⟨whole, hwhole, hiff⟩ := fullWords_eq hlen
  unfold Bitmap.full
  rw [hwhole, Option.bind_eq_bind, Option.bind_some]
  by_cases hrest : whole = true ∧ upto % 32 ≠ 0
  · obtain ⟨word, hword⟩ := h.exists_word (i := upto - 1) (by omega)
    have hdiv : (upto - 1) / 32 = upto / 32 := by omega
    rw [hdiv] at hword
    rw [if_pos hrest, hword, Option.bind_eq_bind, Option.bind_some]
    refine ⟨_, rfl, ?_⟩
    rw [beq_iff_eq, or_not_mask_eq_allOnes]
    constructor
    · intro hall i hi
      by_cases hlast : i / 32 = upto / 32
      · exact (has_iff (hlast.symm ▸ hword)).mpr (hall _ (by omega))
      · exact hiff.mp hrest.1 i (by omega) (by omega)
    · intro hall j hj
      have hdiv' : (32 * (upto / 32) + j) / 32 = upto / 32 := by omega
      have hmod : (32 * (upto / 32) + j) % 32 = j := by omega
      have hbit := (has_iff (i := 32 * (upto / 32) + j) (hdiv'.symm ▸ hword)).mp
        (hall _ (by omega))
      rwa [hmod] at hbit
  · rw [if_neg hrest]
    refine ⟨whole, rfl, hiff.trans ⟨fun hall i hi => ?_, fun hall j hle hlt => ?_⟩⟩
    · by_cases hall' : i < 32 * (0 + upto / 32)
      · exact hall i (by omega) hall'
      · -- the last word is only left out where an earlier bit is missing
        have hw : whole = true := hiff.mpr hall
        have hzero : upto % 32 = 0 := not_not.mp fun hne => hrest ⟨hw, hne⟩
        omega
    · exact hall j (by omega)

/-! ## `empty` -/

/-- The bitmap with every bit of its words changed. -/
def inverted (b : Bitmap) : Bitmap where
  bits := b.bits
  map := b.map.map (~~~·)

/-- The words of the inverted bitmap. -/
theorem getElem?_inverted (b : Bitmap) (k : Nat) : b.inverted.map[k]? = b.map[k]?.map (~~~·) :=
  List.getElem?_map

/-- The inverted bitmap has the bits that the bitmap has not. -/
theorem has_inverted (hi : b.map[i / 32]? = some word) : b.inverted.Has i ↔ ¬b.Has i := by
  have hlt : i % 32 < 32 := Nat.mod_lt _ (by decide)
  have hword : b.inverted.map[i / 32]? = some (~~~word) := by
    rw [getElem?_inverted, hi]
    rfl
  rw [has_iff hword, has_iff hi, BitVec.getLsbD_not]
  simp [hlt]

/-- The inverted bitmap has all its words. -/
theorem Whole.inverted (h : b.Whole) : b.inverted.Whole := (List.length_map _).trans h

/-- The inverse of a word is full if the word is zero. -/
theorem not_eq_allOnes_iff : ~~~word = BitVec.allOnes 32 ↔ word = 0 := by
  rw [BitVec.not_eq_comm, BitVec.not_allOnes]
  exact Iff.rfl

/-- No bit is there where all are in the inverted bitmap. -/
theorem emptyWords_eq (b : Bitmap) (i n : Nat) : b.emptyWords i n = b.inverted.fullWords i n := by
  induction n generalizing i with
  | zero => rfl
  | succ n ih =>
    simp only [emptyWords, fullWords, getElem?_inverted]
    cases b.map[i]? with
    | none => rfl
    | some word =>
      simp only [Option.map_some, Option.bind_eq_bind, Option.bind_some, not_eq_allOnes_iff, ih]

/-- A bitmap is empty when its inverse is full. -/
theorem empty_eq (b : Bitmap) (upto : Nat) : b.empty upto = b.inverted.full upto := by
  have hmask (word mask : BitVec 32) :
      (~~~word ||| ~~~mask == BitVec.allOnes 32) = (word &&& mask == 0) := by
    rw [← BitVec.not_and, Bool.eq_iff_iff, beq_iff_eq, beq_iff_eq]
    exact not_eq_allOnes_iff
  unfold empty full
  rw [emptyWords_eq]
  simp only [getElem?_inverted]
  cases b.inverted.fullWords 0 (upto / 32) with
  | none => rfl
  | some whole =>
    cases b.map[upto / 32]? with
    | none => rfl
    | some word => simp only [Option.map_some, Option.bind_eq_bind, Option.bind_some, hmask]

/-- `empty` tells whether none of the first `upto` indices is in the set. -/
theorem Whole.empty (h : b.Whole) (hupto : upto ≤ b.bits) :
    ∃ r, b.empty upto = some r ∧ (r = true ↔ ∀ i < upto, ¬b.Has i) := by
  obtain ⟨r, hr, hiff⟩ := h.inverted.full hupto
  refine ⟨r, (b.empty_eq upto).trans hr, hiff.trans ?_⟩
  refine forall_congr' fun i => imp_congr_right fun hi => ?_
  obtain ⟨word, hword⟩ := h.exists_word (i := i) (by omega)
  exact has_inverted hword

end Bitmap

end Epos
