import Epos.ForStd.ShiftRegister
import Epos.Utility.Crc

/-!
# CRC-16 as a remainder

The register of `crc16` is the remainder of the bytes read so far, and of two zero bytes behind
them, modulo `X ^ 16 + X ^ 12 + X ^ 5 + 1`.
-/

namespace Epos

namespace CRC

open Polynomial

variable {signed : Bool} {s t : List (BitVec 8)}

/-- The bits of a string as coefficients, the last bit of the constant. -/
noncomputable def message (s : List (BitVec 8)) : (ZMod 2)[X] :=
  s.foldl (fun p c => X ^ 8 * p + c.toPoly) 0

/-- The empty string is zero. -/
@[simp] theorem message_nil : message [] = 0 := rfl

/-- One byte more. -/
theorem message_append_singleton (s : List (BitVec 8)) (c : BitVec 8) :
    message (s ++ [c]) = X ^ 8 * message s + c.toPoly := by
  rw [message, List.foldl_append]
  rfl

/-- The polynomial of the table. -/
theorem modulus_eq : (0x1021#16).modulus = X ^ 16 + X ^ 12 + X ^ 5 + 1 := by
  have hpoly : (0x1021#16).toPoly = X ^ 12 + X ^ 5 + 1 := by
    simp [BitVec.toPoly, Finset.sum_range_succ]
    ring
  rw [BitVec.modulus, hpoly]
  ring

/-! ## The loops -/

/-- A shift is a step of the register. -/
theorem shift_eq (crc : BitVec 16) : shift crc = BitVec.feedback 0x1021#16 crc := by
  have htop : crc &&& 0x8000#16 ≠ 0#16 ↔ crc.msb = true := by
    have htwo : 0x8000#16 = BitVec.twoPow 16 15 := rfl
    rw [htwo, BitVec.and_twoPow, BitVec.msb_eq_getLsbD_last]
    split
    · next h => exact iff_of_true (by decide) h
    · next h => exact iff_of_false (by simp) h
  unfold shift BitVec.feedback
  simp only [htop]

/-- Several shifts are as many steps of the register. -/
theorem shifts_eq (i : Nat) (crc : BitVec 16) :
    shifts i crc = (BitVec.feedback 0x1021#16)^[i] crc := by
  induction i generalizing crc with
  | zero => rfl
  | succ i ih => rw [shifts, ih, shift_eq, Function.iterate_succ_apply]

/-- The sign of a `char` is shifted out. -/
theorem unsignedShort_shiftLeft (signed : Bool) (c : BitVec 8) :
    unsignedShort signed c <<< 8 = c ++ 0#8 := by
  apply BitVec.eq_of_getLsbD_eq
  intro i hi
  rw [BitVec.getLsbD_shiftLeft, BitVec.getLsbD_append]
  by_cases hlow : i < 8
  · simp [hlow]
  · have hbit : i - 8 < 8 := by omega
    have hshort : i - 8 < 16 := by omega
    cases signed with
    | false => simp [unsignedShort, hi, hlow, hbit, hshort]
    | true => simp [unsignedShort, hi, hlow, hbit, hshort, BitVec.getElem_signExtend]

/-- The loop over two strings. -/
theorem crc16Loop_append (crc : BitVec 16) (s t : List (BitVec 8)) :
    crc16Loop signed crc (s ++ t) = crc16Loop signed (crc16Loop signed crc s) t := by
  induction s generalizing crc with
  | nil => rfl
  | cons c s ih => exact ih _

/-- One byte more. -/
theorem toPoly_crc16_append_singleton (s : List (BitVec 8)) (c : BitVec 8) :
    (crc16 signed (s ++ [c])).toPoly =
      (X ^ 8 * ((crc16 signed s).toPoly + X ^ 8 * c.toPoly)) %ₘ (0x1021#16).modulus := by
  have hstep : crc16 signed (s ++ [c]) =
      shifts 8 (crc16 signed s ^^^ (unsignedShort signed c <<< 8)) := crc16Loop_append 0#16 s [c]
  rw [hstep, shifts_eq, BitVec.toPoly_iterate_feedback, BitVec.toPoly_xor,
    unsignedShort_shiftLeft, BitVec.toPoly_append, BitVec.toPoly_zero, add_zero]

/-- The CRC is the remainder of the message. -/
theorem toPoly_crc16 (signed : Bool) (s : List (BitVec 8)) :
    (crc16 signed s).toPoly = (X ^ 16 * message s) %ₘ (0x1021#16).modulus := by
  induction s using List.reverseRecOn with
  | nil => simp [crc16, crc16Loop]
  | append_singleton s c ih =>
    have hsplit : X ^ 16 * (X ^ 8 * message s + c.toPoly) =
        X ^ 8 * (X ^ 16 * message s) + X ^ 8 * (X ^ 8 * c.toPoly) := by ring
    rw [toPoly_crc16_append_singleton, ih, message_append_singleton, hsplit, mul_add,
      add_modByMonic, BitVec.mul_mod_modulus, add_modByMonic]

/-! ## Sums of strings -/

/-- Messages add up. -/
theorem message_zipWith_xor (h : t.length = s.length) :
    message (List.zipWith (· ^^^ ·) s t) = message s + message t := by
  induction s using List.reverseRecOn generalizing t with
  | nil =>
    have hnil : t = [] := List.length_eq_zero_iff.mp h
    simp [hnil]
  | append_singleton s c ih =>
    cases t using List.reverseRecOn with
    | nil => simp at h
    | append_singleton t d =>
      have hlen : t.length = s.length := by simpa using h
      rw [List.zipWith_append hlen.symm, List.zipWith_cons_cons, List.zipWith_nil_left,
        message_append_singleton, message_append_singleton, message_append_singleton, ih hlen,
        BitVec.toPoly_xor]
      ring

/-- The CRCs of two strings of one length add up. -/
theorem crc16_zipWith_xor (h : t.length = s.length) :
    crc16 signed (List.zipWith (· ^^^ ·) s t) = crc16 signed s ^^^ crc16 signed t := by
  apply BitVec.toPoly_injective
  rw [BitVec.toPoly_xor, toPoly_crc16, toPoly_crc16, toPoly_crc16, message_zipWith_xor h, mul_add,
    add_modByMonic]

/-! ## The string with its CRC -/

/-- `crc >> 8`. -/
def high (crc : BitVec 16) : BitVec 8 := (crc >>> 8).setWidth 8

/-- `crc & 0xff`. -/
def low (crc : BitVec 16) : BitVec 8 := crc.setWidth 8

/-- The two bytes of a CRC. -/
theorem high_append_low (crc : BitVec 16) : high crc ++ low crc = crc := by
  apply BitVec.eq_of_getLsbD_eq
  intro i hi
  rw [BitVec.getLsbD_append]
  by_cases hlow : i < 8
  · simp [low, hlow]
  · have hbit : i - 8 < 8 := by omega
    have hsum : 8 + (i - 8) = i := by omega
    simp [high, hlow, hbit, hsum]

/-- A message with its CRC behind has the CRC 0. -/
theorem crc16_append_crc (signed : Bool) (s : List (BitVec 8)) :
    crc16 signed (s ++ [high (crc16 signed s), low (crc16 signed s)]) = 0#16 := by
  apply BitVec.toPoly_injective
  have hcrc := congrArg BitVec.toPoly (high_append_low (crc16 signed s))
  rw [BitVec.toPoly_append] at hcrc
  generalize high (crc16 signed s) = h at *
  generalize low (crc16 signed s) = l at *
  have hmessage : X ^ 16 * message (s ++ [h, l]) =
      X ^ 16 * (X ^ 16 * message s) + X ^ 16 * (X ^ 8 * h.toPoly + l.toPoly) := by
    rw [List.append_cons, message_append_singleton, message_append_singleton]
    ring
  -- the CRC is added to the remainder that it is
  rw [toPoly_crc16, hmessage, hcrc, toPoly_crc16, add_modByMonic, BitVec.mul_mod_modulus,
    CharTwo.add_self_eq_zero, BitVec.toPoly_zero]

/-- `crc16` is the remainder of the string and sixteen zero bits behind it, it is linear, and the
    string with its CRC behind it has none left. -/
theorem crc16_correct (signed : Bool) (s : List (BitVec 8)) :
    (crc16 signed s).toPoly = (X ^ 16 * message s) %ₘ (X ^ 16 + X ^ 12 + X ^ 5 + 1) ∧
      (∀ t, t.length = s.length →
        crc16 signed (List.zipWith (· ^^^ ·) s t) = crc16 signed s ^^^ crc16 signed t) ∧
      crc16 signed (s ++ [high (crc16 signed s), low (crc16 signed s)]) = 0#16 := by
  refine ⟨?_, fun t h => crc16_zipWith_xor h, crc16_append_crc signed s⟩
  rw [toPoly_crc16, modulus_eq]

/-- Two strings of four bytes, with and without the high bits that make a signed `char` negative. -/
theorem crc16_correct_example :
    crc16 true [0xce#8, 0xcd#8, 0x4a#8, 0x7b#8] =
      crc16 true [0x31#8, 0x32#8, 0xb3#8, 0x04#8] ^^^ crc16 true [0xff#8, 0xff#8, 0xf9#8, 0x7f#8] :=
  (crc16_correct true [0x31#8, 0x32#8, 0xb3#8, 0x04#8]).2.1 [0xff#8, 0xff#8, 0xf9#8, 0x7f#8] rfl

end CRC

end Epos
