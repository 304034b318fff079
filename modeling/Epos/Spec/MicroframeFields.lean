import Epos.Network.Mac

/-!
# The fields of a microframe

Every getter and every setter is described by the bits that it reads and writes, so two of them
interfere exactly where they have a bit in common. `count(c)` does not mask its argument: from
2048 on it writes into the id, and so does `dec_count()` for the count 0.
-/

namespace Epos

namespace TSTP.MAC.Microframe

variable (mf : Microframe) {i : Nat}

/-- The bit `i` of the first word. -/
def bit (mf : Microframe) (i : Nat) : Bool := mf.al_count_id_hintl.toBitVec.getLsbD i

/-- The bit `i` of the second word. -/
def highBit (mf : Microframe) (i : Nat) : Bool := mf.hinth_crcl.toBitVec.getLsbD i

/-! ## Masks -/

/-- A mask whose ones are the bits from `lo` to `hi` selects these, also beyond its width. -/
theorem getLsbD_mask {w : Nat} (m : BitVec w) (lo hi : Nat) (hhi : hi ≤ w)
    (h : ∀ i : Fin w, m.getLsbD i = decide (lo ≤ i.val ∧ i.val < hi)) :
    m.getLsbD i = decide (lo ≤ i ∧ i < hi) := by
  by_cases hi' : i < w
  · exact h ⟨i, hi'⟩
  · rw [BitVec.getLsbD_of_ge _ _ (by omega), decide_eq_false (by omega)]

/-- The field `count` of `_al_idh_idl_count_hintl`. -/
theorem getLsbD_countMask : (0x0ffe#32).getLsbD i = decide (1 ≤ i ∧ i < 12) :=
  getLsbD_mask _ 1 12 (by omega) (by decide)

/-- The field `id`. -/
theorem getLsbD_idMask : (0x00fff000#32).getLsbD i = decide (12 ≤ i ∧ i < 24) :=
  getLsbD_mask _ 12 24 (by omega) (by decide)

/-- The lower byte of the hint, in the upper byte of the first word. -/
theorem getLsbD_hintlMask : (0xff000000#32).getLsbD i = decide (24 ≤ i ∧ i < 32) :=
  getLsbD_mask _ 24 32 (by omega) (by decide)

/-- The rest of the hint, in the second word. -/
theorem getLsbD_hinthMask : (0x00ffffff#32).getLsbD i = decide (0 ≤ i ∧ i < 24) :=
  getLsbD_mask _ 0 24 (by omega) (by decide)

/-- The mask of one byte. -/
theorem getLsbD_byteMask : (0xff#32).getLsbD i = decide (0 ≤ i ∧ i < 8) :=
  getLsbD_mask _ 0 8 (by omega) (by decide)

/-- The mask of all but one byte. -/
theorem getLsbD_upperMask : (0xffffff00#32).getLsbD i = decide (8 ≤ i ∧ i < 32) :=
  getLsbD_mask _ 8 32 (by omega) (by decide)

/-- The mask of twelve bits in a word. -/
theorem getLsbD_twelveMask : (0x0fff#32).getLsbD i = decide (0 ≤ i ∧ i < 12) :=
  getLsbD_mask _ 0 12 (by omega) (by decide)

/-- The mask of eleven bits in a word. -/
theorem getLsbD_elevenMask : (0x07ff#32).getLsbD i = decide (0 ≤ i ∧ i < 11) :=
  getLsbD_mask _ 0 11 (by omega) (by decide)

/-- The mask of eleven bits in a half word. -/
theorem getLsbD_elevenMask16 : (0x07ff#16).getLsbD i = decide (0 ≤ i ∧ i < 11) :=
  getLsbD_mask _ 0 11 (by omega) (by decide)

/-- The mask of twelve bits in a half word. -/
theorem getLsbD_twelveMask16 : (0x0fff#16).getLsbD i = decide (0 ≤ i ∧ i < 12) :=
  getLsbD_mask _ 0 12 (by omega) (by decide)

/-! ## Getters -/

/-- `all_listen()` reads the lowest bit. -/
theorem all_listen_eq : mf.all_listen = mf.bit 0 := by
  have hand := BitVec.and_one_eq_setWidth_ofBool_getLsbD (x := mf.al_count_id_hintl.toBitVec)
  simp only [all_listen, bit, ← UInt32.toBitVec_inj, ne_eq, UInt32.toBitVec_and]
  cases hbit : mf.al_count_id_hintl.toBitVec.getLsbD 0 <;> simp_all

/-- `count()` reads the eleven bits above it. -/
theorem getLsbD_count :
    mf.count.toBitVec.getLsbD i = (decide (i < 11) && mf.bit (i + 1)) := by
  simp [count, bit, getLsbD_countMask]
  grind

/-- `id()` reads the twelve bits above these. -/
theorem getLsbD_id :
    mf.id.toBitVec.getLsbD i = (decide (i < 12) && mf.bit (i + 12)) := by
  simp [id, bit, getLsbD_idMask]
  grind

/-- The low byte of the hint and the others have no bit in common, so their sum has no carry. -/
theorem getLsbD_hint :
    mf.hint.toBitVec.getLsbD i =
      (decide (i < 8) && mf.bit (i + 24) || decide (8 ≤ i ∧ i < 32) && mf.highBit (i - 8)) := by
  have hdisjoint : (mf.al_count_id_hintl.toBitVec &&& 0xff000000#32) >>> 24 &&&
      (mf.hinth_crcl.toBitVec &&& 0x00ffffff#32) <<< 8 = 0#32 := by
    apply BitVec.eq_of_getLsbD_eq
    intro j hj
    simp [getLsbD_hintlMask, getLsbD_hinthMask]
    grind
  simp [hint, bit, highBit, BitVec.add_eq_or_of_and_eq_zero _ _ hdisjoint, getLsbD_hintlMask,
    getLsbD_hinthMask]
  grind

/-! ## Setters -/

/-- What `count(c)` leaves in the first word: a bit of `c` above its eleven spills over. -/
theorem bit_setCount (c : UInt16) :
    (mf.setCount c).bit i =
      (!decide (1 ≤ i ∧ i < 12) && mf.bit i || decide (1 ≤ i) && c.toBitVec.getLsbD (i - 1)) := by
  simp [setCount, bit, getLsbD_countMask, -BitVec.reduceNot]
  grind

/-- What `id(id)` leaves in the first word. -/
theorem bit_setId (id : UInt16) :
    (mf.setId id).bit i = if 12 ≤ i ∧ i < 24 then id.toBitVec.getLsbD (i - 12) else mf.bit i := by
  simp [setId, bit, getLsbD_idMask, getLsbD_twelveMask, -BitVec.reduceNot]
  grind

/-- What `all_listen(all_listen)` leaves in the first word. -/
theorem bit_setAllListen (all_listen : Bool) :
    (mf.setAllListen all_listen).bit i = if i = 0 then all_listen else mf.bit i := by
  cases all_listen <;> simp [setAllListen, bit, -BitVec.reduceNot] <;> grind

/-- What `hint(h)` leaves in the first word. -/
theorem bit_setHint (h : UInt32) :
    (mf.setHint h).bit i =
      if 24 ≤ i ∧ i < 32 then h.toBitVec.getLsbD (i - 24) else mf.bit i := by
  simp [setHint, bit, getLsbD_hintlMask, getLsbD_byteMask, -BitVec.reduceNot]
  grind

/-- What `hint(h)` leaves in the second word. -/
theorem highBit_setHint (h : UInt32) :
    (mf.setHint h).highBit i =
      if i < 24 then h.toBitVec.getLsbD (i + 8) else mf.highBit i := by
  simp [setHint, highBit, getLsbD_hinthMask, getLsbD_upperMask, -BitVec.reduceNot]
  grind

/-! ## The constructor -/

/-- The first word of a new microframe. -/
theorem bit_new (all_listen : Bool) (id count : UInt16) (hint : UInt32) :
    (new all_listen id count hint).bit i =
      if i = 0 then all_listen
      else if i < 12 then count.toBitVec.getLsbD (i - 1)
      else if i < 24 then id.toBitVec.getLsbD (i - 12)
      else decide (i < 32) && hint.toBitVec.getLsbD (i - 24) := by
  cases all_listen <;>
    simp [new, bit, getLsbD_byteMask, getLsbD_elevenMask, getLsbD_twelveMask] <;> grind

/-- The second word of a new microframe. -/
theorem highBit_new (all_listen : Bool) (id count : UInt16) (hint : UInt32) :
    (new all_listen id count hint).highBit i = hint.toBitVec.getLsbD (i + 8) := by
  simp [new, highBit, getLsbD_upperMask]
  grind

/-! ## Fields -/

variable {mf}

/-- `count()` compared bit by bit. -/
theorem count_eq_iff {c : UInt16} :
    mf.count = c ↔ ∀ i < 16, (decide (i < 11) && mf.bit (i + 1)) = c.toBitVec.getLsbD i := by
  simp only [← UInt16.toBitVec_inj, ← getLsbD_count]
  exact ⟨fun h i _ => by rw [h], fun h => BitVec.eq_of_getLsbD_eq h⟩

/-- `id()` compared bit by bit. -/
theorem id_eq_iff {n : UInt16} :
    mf.id = n ↔ ∀ i < 16, (decide (i < 12) && mf.bit (i + 12)) = n.toBitVec.getLsbD i := by
  simp only [← UInt16.toBitVec_inj, ← getLsbD_id]
  exact ⟨fun h i _ => by rw [h], fun h => BitVec.eq_of_getLsbD_eq h⟩

/-- `hint()` compared bit by bit, over both words. -/
theorem hint_eq_iff {h : UInt32} :
    mf.hint = h ↔ ∀ i < 32, (decide (i < 8) && mf.bit (i + 24) ||
      decide (8 ≤ i ∧ i < 32) && mf.highBit (i - 8)) = h.toBitVec.getLsbD i := by
  simp only [← UInt32.toBitVec_inj, ← getLsbD_hint]
  exact ⟨fun h i _ => by rw [h], fun h => BitVec.eq_of_getLsbD_eq h⟩

/-- The constructor keeps eleven bits of the count and twelve of the id. -/
theorem fields_new (all_listen : Bool) (id count : UInt16) (hint : UInt32) :
    (new all_listen id count hint).fields =
      { all_listen, id := id &&& 0x0fff, count := count &&& 0x07ff, hint } := by
  ext1
  · simp [fields, all_listen_eq, bit_new]
  · simp only [fields, id_eq_iff, bit_new]
    intro i hi
    simp [getLsbD_twelveMask16]
    grind
  · simp only [fields, count_eq_iff, bit_new]
    intro i hi
    simp [getLsbD_elevenMask16]
    grind
  · simp only [fields, hint_eq_iff, bit_new, highBit_new]
    intro i hi
    grind

/-- `all_listen(all_listen)` sets its own field only. -/
theorem fields_setAllListen (all_listen : Bool) :
    (mf.setAllListen all_listen).fields = { mf.fields with all_listen } := by
  ext1
  · simp [fields, all_listen_eq, bit_setAllListen]
  · simp only [fields, id_eq_iff, bit_setAllListen, getLsbD_id]
    intro i hi
    simp
  · simp only [fields, count_eq_iff, bit_setAllListen, getLsbD_count]
    intro i hi
    simp
  · simp only [fields, hint_eq_iff, bit_setAllListen, getLsbD_hint]
    intro i hi
    simp [setAllListen, highBit]

/-- `id(id)` sets its own field only. -/
theorem fields_setId (id : UInt16) :
    (mf.setId id).fields = { mf.fields with id := id &&& 0x0fff } := by
  ext1
  · simp [fields, all_listen_eq, bit_setId]
  · simp only [fields, id_eq_iff, bit_setId]
    intro i hi
    simp [getLsbD_twelveMask16]
    grind
  · simp only [fields, count_eq_iff, bit_setId, getLsbD_count]
    intro i hi
    grind
  · simp only [fields, hint_eq_iff, bit_setId, getLsbD_hint]
    intro i hi
    have hhigh : (mf.setId id).highBit (i - 8) = mf.highBit (i - 8) := rfl
    grind

/-- `hint(hint)` sets its own field only. -/
theorem fields_setHint (hint : UInt32) :
    (mf.setHint hint).fields = { mf.fields with hint } := by
  ext1
  · simp [fields, all_listen_eq, bit_setHint]
  · simp only [fields, id_eq_iff, bit_setHint, getLsbD_id]
    intro i hi
    grind
  · simp only [fields, count_eq_iff, bit_setHint, getLsbD_count]
    intro i hi
    grind
  · simp only [fields, hint_eq_iff, bit_setHint, highBit_setHint]
    intro i hi
    grind

/-- The five bits of a count that are too many go to the lowest bits of the id. -/
theorem fields_setCount (c : UInt16) :
    (mf.setCount c).fields =
      { mf.fields with id := mf.id ||| (c >>> 11), count := c &&& 0x07ff } := by
  ext1
  · simp [fields, all_listen_eq, bit_setCount]
  · simp only [fields, id_eq_iff, bit_setCount]
    intro i hi
    simp [getLsbD_id]
    grind
  · simp only [fields, count_eq_iff, bit_setCount]
    intro i hi
    simp [getLsbD_elevenMask16]
    grind
  · simp only [fields, hint_eq_iff, bit_setCount, getLsbD_hint]
    intro i hi
    simp [setCount, highBit]
    grind

/-! ## Setters and their own fields -/

/-- `count()` has eleven bits. -/
theorem count_lt (mf : Microframe) : mf.count.toNat < 2048 := by
  have hle : mf.al_count_id_hintl.toNat &&& 0x0ffe ≤ 0x0ffe := Nat.and_le_right
  simp [count]
  omega

/-- Or-ing `c` into `n` changes nothing exactly where `n` has all bits of `c`. -/
theorem or_eq_self_iff (n c : UInt16) : n ||| c = n ↔ n &&& c = c := by
  simp only [← UInt16.toBitVec_inj, UInt16.toBitVec_or, UInt16.toBitVec_and]
  constructor
  · intro h
    apply BitVec.eq_of_getLsbD_eq
    intro i hi
    have hbit := congrArg (BitVec.getLsbD · i) h
    simp at hbit ⊢
    grind
  · intro h
    apply BitVec.eq_of_getLsbD_eq
    intro i hi
    have hbit := congrArg (BitVec.getLsbD · i) h
    simp at hbit ⊢
    grind

namespace Setter

/-- What a setter is for: it writes one field, as far as the field is wide. -/
def own : Setter → Fields → Fields
  | .all_listen listen, f => { f with all_listen := listen }
  | .id n, f => { f with id := n &&& 0x0fff }
  | .count c, f => { f with count := c &&& 0x07ff }
  | .dec_count, f => { f with count := (f.count - 1) &&& 0x07ff }
  | .hint h, f => { f with hint := h }

/-- What a count has beyond its eleven bits is in the id already; `dec_count()` writes sixteen
    ones for the count 0. -/
def Fits (mf : Microframe) : Setter → Prop
  | .count c => mf.id &&& (c >>> 11) = c >>> 11
  | .dec_count => mf.count ≠ 0 ∨ mf.id &&& 0x1f = 0x1f
  | _ => True

end Setter

/-- `count(c)` sets its own field only exactly when `id` has the bits of `c` above the eleventh.
    -/
theorem setCount_own_iff (mf : Microframe) (c : UInt16) :
    (mf.setCount c).fields = { mf.fields with count := c &&& 0x07ff } ↔
      mf.id &&& (c >>> 11) = c >>> 11 := by
  rw [fields_setCount, ← or_eq_self_iff]
  simp [fields]

/-- `dec_count()` spares the other fields unless it decrements 0 and `id` does not absorb the
    ones. -/
theorem dec_count_own_iff (mf : Microframe) :
    mf.dec_count.2.fields = { mf.fields with count := (mf.count - 1) &&& 0x07ff } ↔
      mf.count ≠ 0 ∨ mf.id &&& 0x1f = 0x1f := by
  simp only [dec_count]
  rw [setCount_own_iff]
  by_cases hcount : mf.count = 0
  · have hones : (mf.count - 1) >>> 11 = 0x1f := by
      rw [hcount]
      decide
    rw [hones]
    simp [hcount]
  · -- nothing is lost of a smaller count
    have hlt := mf.count_lt
    have hzero : (mf.count - 1) >>> 11 = 0 := by
      have hpos : mf.count.toNat ≠ 0 := fun h => hcount (UInt16.toNat_inj.mp h)
      apply UInt16.toNat_inj.mp
      simp [Nat.shiftRight_eq_div_pow, UInt16.toNat_sub]
      omega
    simp [hzero, hcount]

/-- The getters return what the constructor was given, and the setters that write their own field
    only are those whose count has no bits beyond eleven that the id has not. -/
theorem fields_isolated_iff (mf : Microframe) (op : Setter) :
    (∀ (all_listen : Bool) (id count : UInt16) (hint : UInt32), id < 0x1000 → count < 0x800 →
      (new all_listen id count hint).fields = { all_listen, id, count, hint }) ∧
    ((op.apply mf).fields = op.own mf.fields ↔ op.Fits mf) := by
  constructor
  · intro all_listen id count hint hid hcount
    have hid' : id &&& 0x0fff = id := by
      apply UInt16.toNat_inj.mp
      rw [UInt16.toNat_and]
      exact Nat.and_two_pow_sub_one_of_lt_two_pow (n := 12) hid
    have hcount' : count &&& 0x07ff = count := by
      apply UInt16.toNat_inj.mp
      rw [UInt16.toNat_and]
      exact Nat.and_two_pow_sub_one_of_lt_two_pow (n := 11) hcount
    rw [fields_new, hid', hcount']
  · cases op with
    | all_listen all_listen => exact iff_of_true (fields_setAllListen all_listen) trivial
    | id id => exact iff_of_true (fields_setId id) trivial
    | count c => exact setCount_own_iff mf c
    | dec_count => exact dec_count_own_iff mf
    | hint h => exact iff_of_true (fields_setHint h) trivial

/-- A microframe with a count that is as large as it can be, and its getters. -/
theorem fields_isolated_example :
    (new true 0x123 0x7ff 0xdeadbeef).fields =
      { all_listen := true, id := 0x123, count := 0x7ff, hint := 0xdeadbeef } :=
  (fields_isolated_iff (new false 0 0 0) .dec_count).1 true 0x123 0x7ff 0xdeadbeef (by decide)
    (by decide)

/-- `count(0x0800)` and `dec_count()` of the count 0 change the id. -/
theorem not_fields_isolated :
    (Setter.apply (new false 0x100 5 0) (.count 0x0800)).id = 0x101 ∧
    (Setter.apply (new false 0x100 0 0) .dec_count).id = 0x11f ∧
    ¬ ∀ (mf : Microframe) (op : Setter), (op.apply mf).fields = op.own mf.fields := by
  refine ⟨by decide, by decide, fun h => ?_⟩
  exact absurd (h (new false 0x100 5 0) (.count 0x0800)) (by decide)

end TSTP.MAC.Microframe

end Epos
