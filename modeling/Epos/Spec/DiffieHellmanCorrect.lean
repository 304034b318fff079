import Epos.Spec.BignumCorrect
import Epos.Utility.DiffieHellman
import Mathlib.Algebra.Field.Rat
import Mathlib.Algebra.Group.Prod
import Mathlib.Tactic.Abel
import Mathlib.Tactic.FieldSimp

/-!
# Multiplication of a point by a scalar

The points stand for the elements of a commutative group. The loops double once for each bit
behind the highest one and add once for each bit that is set, so `operator*=` computes the
multiple, and both parties of a key agreement come to the same element.
-/

namespace Epos

namespace DiffieHellman

open Bignum (Digit Word)

/-- The operations on points as those of a commutative group. The coordinates are Jacobian
    ones: `z` scales, points without it stand for zero, and so does the origin, which is on no
    curve. -/
structure Curve (F G : Type) [Field F] [AddCommGroup G] extends Operations F where
  element : Point F → G
  element_double : ∀ p, element (jacobian_double p) = element p + element p
  element_add : ∀ p q, element (add_jacobian_affine p q) = element p + element q
  element_scale : ∀ x y z, z ≠ 0 → element { x := x * z ^ 2, y := y * z ^ 3, z } =
    element { x, y, z := 1 }
  element_infinity : ∀ x y, element { x, y, z := 0 } = 0
  element_origin : element { x := 0, y := 0, z := 1 } = 0

/-- Pairs of coordinates as the group, added one by one. -/
def Curve.coordinates (F : Type) [Field F] : Curve F (F × F) where
  jacobian_double p :=
    { x := p.x / p.z ^ 2 + p.x / p.z ^ 2, y := p.y / p.z ^ 3 + p.y / p.z ^ 3, z := 1 }
  add_jacobian_affine p q :=
    { x := p.x / p.z ^ 2 + q.x / q.z ^ 2, y := p.y / p.z ^ 3 + q.y / q.z ^ 3, z := 1 }
  element p := (p.x / p.z ^ 2, p.y / p.z ^ 3)
  element_double p := by simp
  element_add p q := by simp
  element_scale x y z hz := by simp [hz]
  element_infinity x y := by simp
  element_origin := by simp

/-! ## The bits of a digit -/

/-- The bits of a digit, the highest first. -/
theorem readBits_apply (bin : Bits) (n : Nat) (now : Digit) (j : Nat) :
    readBits bin n now j = if j < n then now.toNat.testBit (n - 1 - j) else bin j := by
  induction n generalizing bin now with
  | zero => rfl
  | succ n ih =>
    have htwo : (2 : Digit).toNat = 2 := rfl
    rw [readBits, ih, UInt32.toNat_div, htwo]
    by_cases hlt : j < n
    · have hj : n + 1 - 1 - j = n - 1 - j + 1 := by omega
      rw [if_pos hlt, if_pos (by omega), hj, Nat.testBit_succ]
    · rw [if_neg hlt]
      by_cases heq : j = n
      · have hbit : (now % 2 ≠ 0) ↔ now.toNat % 2 = 1 := by
          rw [ne_eq, ← UInt32.toNat_inj, UInt32.toNat_mod, htwo]
          show ¬ _ = 0 ↔ _
          omega
        have hzero : n + 1 - 1 - n = 0 := by omega
        rw [heq, Function.update_self, if_pos (by omega), hzero, Nat.testBit_zero]
        exact decide_eq_decide.mpr hbit
      · rw [Function.update_of_ne heq, if_neg (by omega)]

/-- The leading bits of the highest digit are read like those of the others. -/
theorem readLeadingBits_fst (bin : Bits) (current_bit n : Nat) (now : Digit) :
    (readLeadingBits bin current_bit n now).1 = readBits bin n now := by
  induction n generalizing bin current_bit now with
  | zero => rfl
  | succ n ih => exact ih _ _ _

/-- The highest bit is skipped. -/
theorem readLeadingBits_snd (bin : Bits) (current_bit n : Nat) (now : Digit)
    (h : now.toNat < 2 ^ n) :
    (readLeadingBits bin current_bit n now).2 =
      if now = 0 then current_bit else n - now.toNat.log2 := by
  induction n generalizing bin current_bit now with
  | zero =>
    have hzero : now = 0 := UInt32.toNat_inj.mp (Nat.lt_one_iff.mp h)
    rw [if_pos hzero]
    rfl
  | succ n ih =>
    have htwo : (2 : Digit).toNat = 2 := rfl
    have hhalf : (now / 2).toNat = now.toNat / 2 := by rw [UInt32.toNat_div, htwo]
    have hzero (d : Digit) : d = 0 ↔ d.toNat = 0 := UInt32.toNat_inj.symm
    have hodd : (now % 2 ≠ 0) ↔ now.toNat % 2 = 1 := by
      rw [ne_eq, hzero, UInt32.toNat_mod, htwo]
      omega
    rw [readLeadingBits, ih _ _ _ (by rw [hhalf]; omega), hhalf]
    simp only [hzero, hhalf, hodd]
    rw [Nat.log2_def now.toNat]
    -- the last bit that the loop finds set is the highest one
    by_cases hlast : now.toNat / 2 = 0
    · have hlow : ¬ 2 ≤ now.toNat := by omega
      rw [if_pos hlast, if_neg hlow]
      by_cases hone : now.toNat % 2 = 1
      · rw [if_pos hone, if_neg (by omega), Nat.sub_zero]
      · rw [if_neg hone, if_pos (by omega)]
    · have hhigh : 2 ≤ now.toNat := by omega
      rw [if_neg hlast, if_neg (by omega), if_pos hhigh]
      omega

/-! ## The loops -/

section Loops

variable {F G : Type} [Field F] [AddCommGroup G] (c : Curve F G)

/-- `left` bits double as often, and add the number that they stand for. -/
theorem element_scanBits (pp : Point F) (now : Digit) (bin : Bits) (left : Nat) (p : Point F)
    (hbin : ∀ k < left, bin (32 - (k + 1)) = now.toNat.testBit k) :
    c.element (scanBits c.toOperations pp bin left p) =
      2 ^ left • c.element p + (now.toNat % 2 ^ left) • c.element pp := by
  induction left generalizing p with
  | zero => rw [scanBits, pow_zero, one_nsmul, Nat.mod_one, zero_nsmul, add_zero]
  | succ left ih =>
    have hbit := hbin left left.lt_succ_self
    rw [scanBits, ih _ fun k hk => hbin k (Nat.lt_succ_of_lt hk), hbit, Nat.mod_pow_succ,
      Nat.testBit_eq_decide_div_mod_eq]
    by_cases hset : now.toNat / 2 ^ left % 2 = 1
    · rw [hset, if_pos (decide_eq_true rfl), c.element_add, c.element_double]
      rw [Nat.mul_one, pow_succ, mul_nsmul', add_nsmul, nsmul_add, two_nsmul]
      abel
    · have hclear : now.toNat / 2 ^ left % 2 = 0 := by omega
      rw [hclear, if_neg (by decide), c.element_double]
      rw [Nat.mul_zero, pow_succ, mul_nsmul', two_nsmul]
      rfl

/-- A whole digit. -/
theorem element_scanBits_readBits (pp : Point F) (now : Digit) (bin : Bits) (p : Point F) :
    c.element (scanBits c.toOperations pp (readBits bin 32 now) 32 p) =
      2 ^ 32 • c.element p + now.toNat • c.element pp := by
  rw [element_scanBits c pp now, Nat.mod_eq_of_lt now.toNat_lt]
  intro k hk
  have hindex : 32 - 1 - (32 - (k + 1)) = k := by omega
  rw [readBits_apply, if_pos (by omega), hindex]

/-- The loop over the digits, when `v` times the point is there behind the bits of one digit. -/
theorem element_scanDigits (pp : Point F) (b : Word) (i v : Nat) (bin : Bits) (current_bit : Nat)
    (p : Point F) (h : c.element (scanBits c.toOperations pp bin (32 - current_bit) p) =
      v • c.element pp) :
    c.element (scanDigits c.toOperations pp b i bin current_bit p) =
      (v * (2 ^ 32) ^ i + Word.toNat i b) • c.element pp := by
  induction i generalizing v bin current_bit p with
  | zero =>
    have hzero : Word.toNat 0 b = 0 := rfl
    rw [scanDigits, h, hzero, pow_zero, mul_one, add_zero]
  | succ i ih =>
    have hdigit : c.element (scanBits c.toOperations pp (readBits bin 32 (b i)) (32 - 0)
        (scanBits c.toOperations pp bin (32 - current_bit) p)) =
        (v * 2 ^ 32 + (b i).toNat) • c.element pp := by
      rw [element_scanBits_readBits, h, add_nsmul, mul_nsmul]
    rw [scanDigits, ih _ _ _ _ hdigit, Bignum.toNat_succ]
    congr 1
    ring

/-- The loop multiplies by the value of the digits. -/
theorem element_scan (b_len : Nat) (p : Point F) (b : Word) (hpos : 0 < b_len)
    (hne : b (b_len - 1) ≠ 0) :
    c.element (scan c.toOperations b_len p b) = Word.toNat b_len b • c.element p := by
  generalize hnow : b (b_len - 1) = now at hne
  have hne' : now.toNat ≠ 0 := fun h => hne (UInt32.toNat_inj.mp h)
  have hlog : now.toNat.log2 < 32 := (Nat.log2_lt hne').mpr now.toNat_lt
  obtain ⟨hle, hlt⟩ := (Nat.log2_eq_iff hne').mp rfl
  rw [Nat.pow_succ] at hlt
  have hbits : (readLeadingBits (fun _ => false) 32 32 now).2 = 32 - now.toNat.log2 := by
    rw [readLeadingBits_snd _ _ _ _ now.toNat_lt, if_neg hne]
  -- the highest bit is there already, as the point itself
  have hlead : c.element (scanBits c.toOperations p (readBits (fun _ => false) 32 now)
      (32 - (32 - now.toNat.log2)) p) = now.toNat • c.element p := by
    have hleft : 32 - (32 - now.toNat.log2) = now.toNat.log2 := by omega
    rw [hleft, element_scanBits c p now, ← add_nsmul]
    · congr 1
      have hmod : now.toNat % 2 ^ now.toNat.log2 = now.toNat - 2 ^ now.toNat.log2 := by
        rw [Nat.mod_eq_sub_mod hle, Nat.mod_eq_of_lt (by omega)]
      omega
    · intro k hk
      have hindex : 32 - 1 - (32 - (k + 1)) = k := by omega
      rw [readBits_apply, if_pos (by omega), hindex]
  have hsplit : Word.toNat b_len b =
      now.toNat * (2 ^ 32) ^ (b_len - 1) + Word.toNat (b_len - 1) b := by
    have hlen : b_len = b_len - 1 + 1 := by omega
    rw [hlen, Bignum.toNat_succ, Nat.add_sub_cancel, hnow, Nat.add_comm]
  rw [scan, hnow]
  dsimp only
  rw [hbits, readLeadingBits_fst, element_scanDigits c p b _ _ _ _ _ hlead, hsplit]

/-! ## `operator*=` -/

/-- The point with `z = 0` is the zero of the group. -/
theorem element_null : c.element { x := 0, y := 0, z := 0 } = 0 := c.element_infinity 0 0

/-- `to_affine` keeps the point. -/
theorem element_toAffine (p : Point F) : c.element (toAffine p) = c.element p := by
  obtain ⟨x, y, z⟩ := p
  by_cases hz : z = 0
  · have horigin : toAffine { x, y, z } = { x := 0, y := 0, z := 1 } := by simp [toAffine, hz]
    rw [horigin, hz, c.element_infinity, c.element_origin]
  · have hscale := c.element_scale (x * (z⁻¹ * z⁻¹)) (y * (z⁻¹ * z⁻¹ * z⁻¹)) z hz
    have hx : x * (z⁻¹ * z⁻¹) * z ^ 2 = x := by field_simp
    have hy : y * (z⁻¹ * z⁻¹ * z⁻¹) * z ^ 3 = y := by field_simp
    rw [hx, hy] at hscale
    exact hscale.symm

/-- The digits that are left out are zero. -/
theorem toNat_bLen (b : Word) (n : Nat) : Word.toNat (bLen b n) b = Word.toNat n b := by
  induction n using bLen.induct b with
  | case1 => rfl
  | case2 => rfl
  | case3 len hzero ih =>
    have hdigit : (b (len + 1)).toNat = 0 := by
      rw [hzero]
      rfl
    rw [bLen, if_pos hzero, ih, Bignum.toNat_succ (len + 1), hdigit, Nat.zero_mul]
    rfl
  | case4 len hne => rw [bLen, if_neg hne]

/-- Only a scalar of one digit may have a zero on top. -/
theorem bLen_eq_one (b : Word) (n : Nat) (h : b (bLen b n - 1) = 0) : bLen b n ≤ 1 := by
  induction n using bLen.induct b with
  | case1 => exact Nat.zero_le 1
  | case2 => exact Nat.le_refl 1
  | case3 len hzero ih =>
    rw [bLen, if_pos hzero] at h ⊢
    exact ih h
  | case4 len hne =>
    rw [bLen, if_neg hne] at h
    exact absurd h hne

/-- The multiple, for any scalar. -/
theorem element_mulAssign (DIGITS : Nat) (p : Point F) (b : Word) :
    c.element (mulAssign c.toOperations DIGITS p b) = Word.toNat DIGITS b • c.element p := by
  rw [mulAssign, ← toNat_bLen b DIGITS]
  split
  · rename_i hnull
    have hzero : Word.toNat (bLen b DIGITS) b = 0 := by
      cases hnull with
      | inl hlen =>
        rw [hlen]
        rfl
      | inr hdigit =>
        have hle := bLen_eq_one b DIGITS hdigit
        by_cases hlen : bLen b DIGITS = 0
        · rw [hlen]
          rfl
        · have hone : bLen b DIGITS = 1 := by omega
          rw [hone] at hdigit ⊢
          rw [Bignum.toNat_succ, hdigit]
          rfl
    rw [hzero, zero_nsmul, element_null]
  · rename_i hsome
    rw [element_toAffine, element_scan c _ _ _ (by omega) (by tauto)]

end Loops

/-! ## Key agreement -/

section Agreement

variable {F G : Type} [Field F] [AddCommGroup G] (c : Curve F G)

/-- An element has one pair of coordinates at most. -/
def Curve.Determined : Prop :=
  ∀ x y x' y', c.element { x, y, z := 1 } = c.element { x := x', y := y', z := 1 } →
    x = x' ∧ y = y'

/-- The coordinates of a field determine the point. -/
theorem coordinates_determined (F : Type) [Field F] : (Curve.coordinates F).Determined := by
  intro x y x' y' h
  simpa [Curve.coordinates] using h

/-- Where `operator*=` can leave a point. -/
def Normal (p : Point F) : Prop := p = { x := 0, y := 0, z := 0 } ∨ p.z = 1

/-- The product is in affine form. -/
theorem normal_mulAssign (DIGITS : Nat) (p : Point F) (b : Word) :
    Normal (mulAssign c.toOperations DIGITS p b) := by
  rw [mulAssign]
  split
  · exact Or.inl rfl
  · exact Or.inr rfl

/-- The origin stands for zero as well as the null point, and has the same coordinates. -/
theorem Normal.exists_eq {p : Point F} (h : Normal p) :
    ∃ q : Point F, q.z = 1 ∧ c.element q = c.element p ∧ q.x = p.x ∧ q.y = p.y := by
  cases h with
  | inl hnull =>
    rw [hnull]
    exact ⟨{ x := 0, y := 0, z := 1 }, rfl, c.element_origin.trans (element_null c).symm, rfl, rfl⟩
  | inr haffine => exact ⟨p, haffine, rfl, rfl, rfl⟩

/-- Two points in affine form that are the same have the same coordinates. -/
theorem Normal.coordinates_eq (hdet : c.Determined) {p q : Point F} (hp : Normal p)
    (hq : Normal q) (h : c.element p = c.element q) : p.x = q.x ∧ p.y = q.y := by
  obtain ⟨⟨px, py, pz⟩, hpz, hpe, hpx, hpy⟩ := hp.exists_eq c
  obtain ⟨⟨qx, qy, qz⟩, hqz, hqe, hqx, hqy⟩ := hq.exists_eq c
  have hpz' : pz = 1 := hpz
  have hqz' : qz = 1 := hqz
  rw [hpz'] at hpe
  rw [hqz'] at hqe
  have heq := hdet px py qx qy (hpe.trans (h.trans hqe.symm))
  exact ⟨hpx.symm.trans (heq.1.trans hqx), hpy.symm.trans (heq.2.trans hqy)⟩

/-- The multiples of every point, and the agreement of any two parties on one base point. -/
theorem point_mulAssign_correct (xor : F → F → F) (DIGITS : Nat) (p : Point F) (a b : Word) :
    c.element (mulAssign c.toOperations DIGITS p b) = Word.toNat DIGITS b • c.element p ∧
    let alice := generateKeypair c.toOperations DIGITS p a
    let bob := generateKeypair c.toOperations DIGITS p b
    c.element (sharedPoint c.toOperations DIGITS alice bob.publicKey) =
      c.element (sharedPoint c.toOperations DIGITS bob alice.publicKey) ∧
    (c.Determined → sharedKey c.toOperations xor DIGITS alice bob.publicKey =
      sharedKey c.toOperations xor DIGITS bob alice.publicKey) := by
  refine ⟨element_mulAssign c DIGITS p b, ?_⟩
  intro alice bob
  have halice : c.element alice.publicKey = Word.toNat DIGITS a • c.element p :=
    element_mulAssign c DIGITS p a
  have hbob : c.element bob.publicKey = Word.toNat DIGITS b • c.element p :=
    element_mulAssign c DIGITS p b
  -- both are the same multiple of the base point, in either order
  have hsame : c.element (sharedPoint c.toOperations DIGITS alice bob.publicKey) =
      c.element (sharedPoint c.toOperations DIGITS bob alice.publicKey) := by
    calc c.element (sharedPoint c.toOperations DIGITS alice bob.publicKey)
        = Word.toNat DIGITS a • Word.toNat DIGITS b • c.element p := by
          rw [sharedPoint, element_mulAssign, hbob]
          rfl
      _ = Word.toNat DIGITS b • Word.toNat DIGITS a • c.element p := nsmul_left_comm _ _ _
      _ = c.element (sharedPoint c.toOperations DIGITS bob alice.publicKey) := by
          rw [sharedPoint, element_mulAssign, halice]
          rfl
  refine ⟨hsame, fun hdet => ?_⟩
  obtain ⟨hx, hy⟩ := Normal.coordinates_eq c hdet (normal_mulAssign c _ _ _)
    (normal_mulAssign c _ _ _) hsame
  show xor _ _ = xor _ _
  rw [sharedPoint, sharedPoint, hx, hy]

end Agreement

/-- Two parties with the private keys 5 and 7. -/
theorem point_mulAssign_correct_rat :
    let ops := (Curve.coordinates ℚ).toOperations
    let alice := generateKeypair ops 4 { x := 1, y := 2, z := 1 } (Bignum.ofNat 5)
    let bob := generateKeypair ops 4 { x := 1, y := 2, z := 1 } (Bignum.ofNat 7)
    sharedKey ops (· + ·) 4 alice bob.publicKey = sharedKey ops (· + ·) 4 bob alice.publicKey :=
  (point_mulAssign_correct (Curve.coordinates ℚ) (· + ·) 4 { x := 1, y := 2, z := 1 } (Bignum.ofNat 5)
    (Bignum.ofNat 7)).2.2 (coordinates_determined ℚ)

end DiffieHellman

end Epos
