import Epos.ForStd.Primality
import Epos.Spec.BignumModular
import Mathlib.Tactic.NormNum.Prime

/-!
# Big number inversion

`invert` is the binary extended Euclidean algorithm: `u` and `v` go down to 0 and 1, and `A` and
the number itself are multiplied by the operand modulo `_mod` what `u` and `v` are. A sum with
`_mod` may have a carry, which `divide_by_two` takes in again.
-/

namespace Epos

namespace Bignum

/-! ## The moduli are prime -/

/-- The small primes of the certificate. -/
theorem prime_of_mem_small : ∀ q ∈ [2, 3, 5, 7, 11, 13, 19, 23, 31, 43, 67, 73, 151, 233, 331, 487,
    541, 4889, 5987, 11131, 30697, 37003, 157133, 221101, 3134801, 32985101], q.Prime := by
  simp only [List.forall_mem_cons]
  norm_num

/-- The moduli, after the large factors of the numbers before them. -/
def moduliCertificate : List Lucas.Line :=
  [⟨367565879, 29, 7, [2, 5987, 30697]⟩,
    ⟨4516015619173, 43, 2, [2, 2, 3, 19, 233, 541, 157133]⟩,
    ⟨4024685905107147541, 62, 2, [2, 2, 3, 3, 5, 13, 43, 4889, 37003, 221101]⟩,
    ⟨222431055585633101740979, 78, 2, [2, 67, 367565879, 4516015619173]⟩,
    ⟨897064739519922787230182993783, 100, 5, [2, 73, 487, 3134801, 4024685905107147541]⟩,
    ⟨2700653704464143955832110573370478657, 122, 5,
      [2, 2, 2, 2, 2, 2, 11, 31, 151, 331, 11131, 222431055585633101740979]⟩,
    ⟨2 ^ 128 - 2 ^ 97 - 1, 128, 3, [2, 3, 3, 7, 2700653704464143955832110573370478657]⟩,
    ⟨2 ^ 130 - 5, 130, 2, [2, 23, 32985101, 897064739519922787230182993783]⟩]

/-- The certificate proves both moduli prime. -/
theorem prime_of_mem_moduli : ∀ l ∈ moduliCertificate, l.number.Prime :=
  Lucas.prime_of_certified prime_of_mem_small (by decide +kernel)

/-- `_mod` of `Bignum<16>`. -/
theorem prime_bignum16 : Nat.Prime (2 ^ 128 - 2 ^ 97 - 1) :=
  prime_of_mem_moduli ⟨_, 128, 3, [2, 3, 3, 7, 2700653704464143955832110573370478657]⟩
    (by simp [moduliCertificate])

/-- `_mod` of `Bignum<17>`. -/
theorem prime_bignum17 : Nat.Prime (2 ^ 130 - 5) :=
  prime_of_mem_moduli ⟨_, 130, 2, [2, 23, 32985101, 897064739519922787230182993783]⟩
    (by simp [moduliCertificate])

/-! ## Halving -/

/-- Half of a digit, with the bit that comes down. -/
theorem toNat_halfDigit (d : Digit) (carry : Bool) :
    (d >>> 1 + (if carry then 1 else 0 : Digit) <<< 31).toNat = d.toNat / 2 + carry.toNat * 2 ^ 31 := by
  have hd := d.toNat_lt
  cases carry with
  | false => simp [UInt32.toNat_shiftRight, Nat.shiftRight_eq_div_pow]
  | true =>
    have htop : ((1 : Digit) <<< 31).toNat = 2 ^ 31 := rfl
    rw [if_pos rfl, UInt32.toNat_add, htop]
    simp [Nat.shiftRight_eq_div_pow]
    omega

/-- The digits above are as before. -/
theorem divideByTwo_of_le (n t : Nat) (h : n ≤ t) (w : Word) (carry : Bool) :
    (divideByTwo n w carry).1 t = w t := by
  induction n generalizing w carry with
  | zero => rfl
  | succ n ih =>
    rw [divideByTwo, ih (by omega), Function.update_of_ne (by omega)]

/-- `divide_by_two` takes the carry in at the top. -/
theorem toNat_divideByTwo (n : Nat) (w : Word) (carry : Bool) :
    Word.toNat n (divideByTwo n w carry).1 =
      (Word.toNat n w + carry.toNat * (2 ^ 32) ^ n) / 2 := by
  induction n generalizing w carry with
  | zero => cases carry <;> simp [Word.toNat]
  | succ n ih =>
    have htop := toNat_halfDigit (w n) carry
    have hparity : (decide (w n % 2 ≠ 0)).toNat = (w n).toNat % 2 := by
      by_cases h : w n % 2 = 0
      · have hzero := congrArg UInt32.toNat h
        simp at hzero
        simp [h, hzero]
      · have hne : (w n).toNat % 2 ≠ 0 := fun hzero => h (UInt32.toNat_inj.mp (by simpa using hzero))
        simp [h]
        omega
    rw [divideByTwo, toNat_succ, divideByTwo_of_le n n (Nat.le_refl n), Function.update_self, htop,
      ih, toNat_update _ _ (Nat.le_refl n), hparity, toNat_succ]
    generalize Word.toNat n w = low
    generalize (w n).toNat = d
    -- the lowest bit of the digit is the carry for the digits below
    have hsplit : low + d * (2 ^ 32) ^ n + carry.toNat * (2 ^ 32) ^ (n + 1) =
        low + d % 2 * (2 ^ 32) ^ n + 2 * ((d / 2 + carry.toNat * 2 ^ 31) * (2 ^ 32) ^ n) := by
      have hd : d = d % 2 + 2 * (d / 2) := by omega
      calc low + d * (2 ^ 32) ^ n + carry.toNat * (2 ^ 32) ^ (n + 1)
          = low + (d % 2 + 2 * (d / 2)) * (2 ^ 32) ^ n + carry.toNat * (2 ^ 32) ^ (n + 1) := by
            rw [← hd]
        _ = _ := by ring
    rw [hsplit, Nat.add_mul_div_left _ _ Nat.two_pos]

/-- `is_even` tests the value. -/
theorem isEven_iff {n : Nat} (hpos : 0 < n) (w : Word) :
    isEven w = true ↔ Word.toNat n w % 2 = 0 := by
  have hlow : Word.toNat n w % 2 = (w 0).toNat % 2 := by
    induction n, hpos using Nat.le_induction with
    | base => simp [Word.toNat, Digits.value_succ, Word.digit]
    | succ n hpos ih =>
      have heven : (2 ^ 32) ^ n = 2 * (2 ^ 31 * (2 ^ 32) ^ (n - 1)) := by
        obtain ⟨k, rfl⟩ : ∃ k, n = k + 1 := ⟨n - 1, by omega⟩
        rw [Nat.add_sub_cancel]
        ring
      rw [toNat_succ, heven, ← ih]
      have hassoc : (w n).toNat * (2 * (2 ^ 31 * (2 ^ 32) ^ (n - 1))) =
          2 * ((w n).toNat * (2 ^ 31 * (2 ^ 32) ^ (n - 1))) := by ring
      rw [hassoc, Nat.add_mul_mod_self_left]
  rw [isEven, decide_eq_true_iff, hlow, ← UInt32.toNat_inj]
  simp

variable {f : Field} {m : Nat}

/-- Modulo an odd number, twice the half is the number. -/
theorem halveMod_eq (hf : f.Correct m) (hodd : m % 2 = 1) (A : Word)
    (hA : Word.toNat f.DIGITS A < m) :
    2 * Word.toNat f.DIGITS (halveMod f A) ≡ Word.toNat f.DIGITS A [MOD m] ∧
      Word.toNat f.DIGITS (halveMod f A) < m := by
  have hm := hf.mod_eq
  rw [halveMod]
  split
  · next heven =>
    rw [isEven_iff hf.digits_pos] at heven
    have hhalf := toNat_divideByTwo f.DIGITS A false
    rw [Bool.toNat_false, Nat.zero_mul, Nat.add_zero] at hhalf
    rw [hhalf]
    constructor
    · rw [show 2 * (Word.toNat f.DIGITS A / 2) = Word.toNat f.DIGITS A by omega]
    · omega
  · next hnot =>
    rw [isEven_iff hf.digits_pos] at hnot
    obtain ⟨hsum, hcarry⟩ := toNat_simpleAdd A A f.mod f.DIGITS
    generalize simpleAdd A A f.mod f.DIGITS = added at *
    obtain ⟨sum, carry⟩ := added
    dsimp only at *
    have hbit : (decide (carry ≠ 0)).toNat = carry.toNat := by
      by_cases h : carry = 0
      · simp [h]
      · have hne : carry.toNat ≠ 0 := fun hzero => h (UInt64.toNat_inj.mp hzero)
        simp [h]
        omega
    -- with the carry, what is halved is the whole sum, which is even
    rw [toNat_divideByTwo, hbit, hsum, hm]
    constructor
    · rw [show 2 * ((Word.toNat f.DIGITS A + m) / 2) = Word.toNat f.DIGITS A + m by omega]
      exact Nat.add_modEq_right
    · omega

/-- An even value is halved once more. -/
theorem halve_even (passes : Nat) {u : Word} (A : Word) (h : isEven u = true) :
    halve f (passes + 1) u A =
      halve f passes (divideByTwo f.DIGITS u false).1 (halveMod f A) := by
  rw [halve.eq_def]
  exact if_pos h

/-- An odd one is left. -/
theorem halve_odd (passes : Nat) {u : Word} (A : Word) (h : ¬ isEven u = true) :
    halve f passes u A = some (u, A) := by
  rw [halve.eq_def]
  exact if_neg h

/-- The loop `while(u.is_even())` ends with what is odd of a number; `A` is divided by the same
    power of two. -/
theorem halve_eq (hf : f.Correct m) (hodd : m % 2 = 1) {s passes : Nat} (hpasses : s ≤ passes)
    (u A : Word) (hpos : 0 < Word.toNat f.DIGITS u) (hu : Word.toNat f.DIGITS u < 2 ^ s)
    (hA : Word.toNat f.DIGITS A < m) :
    ∃ u' A' k, halve f passes u A = some (u', A') ∧
      Word.toNat f.DIGITS u = 2 ^ k * Word.toNat f.DIGITS u' ∧ Word.toNat f.DIGITS u' % 2 = 1 ∧
      2 ^ k * Word.toNat f.DIGITS A' ≡ Word.toNat f.DIGITS A [MOD m] ∧
      Word.toNat f.DIGITS A' < m := by
  -- by the bits of `u`, of which each pass takes one away
  induction s generalizing passes u A with
  | zero => simp at hu; omega
  | succ s ih =>
    have heq := isEven_iff hf.digits_pos u
    by_cases heven : isEven u = true
    · have heven' := heq.mp heven
      obtain ⟨passes, rfl⟩ : ∃ k, passes = k + 1 := ⟨passes - 1, by omega⟩
      have hpasses' : s ≤ passes := by omega
      have hhalf := toNat_divideByTwo f.DIGITS u false
      rw [Bool.toNat_false, Nat.zero_mul, Nat.add_zero] at hhalf
      obtain ⟨hmod, hlt⟩ := halveMod_eq hf hodd A hA
      rw [Nat.pow_succ] at hu
      obtain ⟨u', A', k, hloop, hu', hodd', hA', hlt'⟩ :=
        -- halving leaves both in range
        ih hpasses' (divideByTwo f.DIGITS u false).1 (halveMod f A) (by omega) (by omega) hlt
      refine ⟨u', A', k + 1, (halve_even passes A heven).trans hloop, ?_, hodd', ?_, hlt'⟩
      · rw [Nat.pow_succ', Nat.mul_assoc, ← hu', hhalf]
        omega
      · rw [Nat.pow_succ', Nat.mul_assoc]
        exact (hA'.mul_left 2).trans hmod
    · have hodd' : Word.toNat f.DIGITS u % 2 = 1 := by
        rw [heq] at heven
        omega
      exact ⟨u, A, 0, halve_odd passes A heven, by simp, hodd', by simp [Nat.ModEq.refl], hA⟩

/-! ## The loop -/

/-- A number smaller than the modulus, which `a` multiplied by is `u` modulo the modulus. -/
structure Multiplier (m a u A : Nat) : Prop where
  lt : A < m
  modEq : A * a ≡ u [MOD m]

/-- Halving both keeps the multiplier, modulo `m`. -/
theorem Multiplier.halve {a u A u' A' k : Nat} (h : Multiplier m a u A) (hodd : m % 2 = 1)
    (hu : u = 2 ^ k * u') (hA : 2 ^ k * A' ≡ A [MOD m]) (hlt : A' < m) :
    Multiplier m a u' A' where
  lt := hlt
  modEq := by
    have hcoprime : Nat.gcd m (2 ^ k) = 1 :=
      Nat.Coprime.pow_right k (Nat.coprime_two_right.mpr (Nat.odd_iff.mpr hodd))
    apply Nat.ModEq.cancel_left_of_coprime hcoprime
    calc 2 ^ k * (A' * a) = 2 ^ k * A' * a := by ring
      _ ≡ A * a [MOD m] := hA.mul_right a
      _ ≡ u [MOD m] := h.modEq
      _ = 2 ^ k * u' := hu

/-- A subtraction of both, which `operator-=` makes. -/
theorem Multiplier.sub {a : Nat} (hf : f.Correct m) {u v : Nat} {A B : Word}
    (h : Multiplier m a u (Word.toNat f.DIGITS A)) (h' : Multiplier m a v (Word.toNat f.DIGITS B))
    (hle : v ≤ u) : Multiplier m a (u - v) (Word.toNat f.DIGITS (subAssign f A B)) := by
  have hA := h.lt
  have hB := h'.lt
  have hm := hf.mod_eq
  have hsub := toNat_subAssign f A B (by omega)
  have hadd : Word.toNat f.DIGITS (subAssign f A B) + Word.toNat f.DIGITS B ≡
      Word.toNat f.DIGITS A [MOD m] := by
    split at hsub
    · rw [show Word.toNat f.DIGITS (subAssign f A B) + Word.toNat f.DIGITS B =
        Word.toNat f.DIGITS A by omega]
    · rw [show Word.toNat f.DIGITS (subAssign f A B) + Word.toNat f.DIGITS B =
        Word.toNat f.DIGITS A + m by omega]
      exact Nat.add_modEq_right
  constructor
  · split at hsub <;> omega
  · apply Nat.ModEq.add_right_cancel h'.modEq
    calc Word.toNat f.DIGITS (subAssign f A B) * a + Word.toNat f.DIGITS B * a
        = (Word.toNat f.DIGITS (subAssign f A B) + Word.toNat f.DIGITS B) * a := by ring
      _ ≡ Word.toNat f.DIGITS A * a [MOD m] := hadd.mul_right a
      _ ≡ u [MOD m] := h.modEq
      _ = u - v + v := by omega

/-- What the loop of `invert` keeps: `u` and `v` have no common divisor, and what they are
    modulo `_mod` the numbers beside them are times `a`. -/
structure Euclid (f : Field) (m a : Nat) (u A v B : Word) : Prop where
  coprime : (Word.toNat f.DIGITS u).Coprime (Word.toNat f.DIGITS v)
  pos : 0 < Word.toNat f.DIGITS v
  left : Multiplier m a (Word.toNat f.DIGITS u) (Word.toNat f.DIGITS A)
  right : Multiplier m a (Word.toNat f.DIGITS v) (Word.toNat f.DIGITS B)

/-- Zero is zero. -/
theorem toNat_ofNat_zero (hf : f.Correct m) : Word.toNat f.DIGITS (ofNat 0) = 0 :=
  toNat_ofNat 0 hf.digits_pos

/-- The loop ends when `u` is zero. -/
theorem invertLoop_zero (hf : f.Correct m) (passes rounds : Nat) {u : Word} (A v B : Word)
    (h : Word.toNat f.DIGITS u = 0) : invertLoop f passes rounds u A v B = some B := by
  have hcmp : cmp u (ofNat 0) f.DIGITS = 0 := by
    rw [cmp_eq_zero_iff, h, toNat_ofNat_zero hf]
  rw [invertLoop.eq_def]
  exact if_neg (not_not.mpr hcmp)

/-- One round of the loop. -/
theorem invertLoop_succ (hf : f.Correct m) (passes rounds : Nat) {u A v B u' A' v' B' : Word}
    (h : 0 < Word.toNat f.DIGITS u) (hu : halve f passes u A = some (u', A'))
    (hv : halve f passes v B = some (v', B')) :
    invertLoop f passes (rounds + 1) u A v B =
      if Word.toNat f.DIGITS v' ≤ Word.toNat f.DIGITS u' then
        invertLoop f passes rounds (subAssign f u' v') (subAssign f A' B') v' B'
      else invertLoop f passes rounds u' A' (subAssign f v' u') (subAssign f B' A') := by
  have hcmp : cmp u (ofNat 0) f.DIGITS ≠ 0 := by
    rw [ne_eq, cmp_eq_zero_iff, toNat_ofNat_zero hf]
    omega
  rw [invertLoop.eq_def]
  simp only [hcmp, ne_eq, not_false_iff, if_true, hu, hv, Option.bind_eq_bind, Option.bind_some,
    cmp_nonneg_iff]

/-- A difference without a borrow. -/
theorem toNat_subAssign_of_le {a b : Word}
    (h : Word.toNat f.DIGITS b ≤ Word.toNat f.DIGITS a) :
    Word.toNat f.DIGITS (subAssign f a b) = Word.toNat f.DIGITS a - Word.toNat f.DIGITS b := by
  rw [toNat_subAssign f a b (by omega), if_pos h]

/-- From odd numbers on, one subtraction leaves one of them and an even one. -/
theorem Euclid.sub (hf : f.Correct m) {a : Nat} {u A v B : Word} (h : Euclid f m a u A v B)
    (hle : Word.toNat f.DIGITS v ≤ Word.toNat f.DIGITS u) :
    Euclid f m a (subAssign f u v) (subAssign f A B) v B where
  coprime := by
    rw [toNat_subAssign_of_le hle]
    exact (Nat.coprime_sub_self_left hle).mpr h.coprime
  pos := h.pos
  left := by
    rw [toNat_subAssign_of_le hle]
    exact h.left.sub hf h.right hle
  right := h.right

/-- The same with `v` as the larger one. -/
theorem Euclid.sub' (hf : f.Correct m) {a : Nat} {u A v B : Word} (h : Euclid f m a u A v B)
    (hlt : Word.toNat f.DIGITS u < Word.toNat f.DIGITS v) :
    Euclid f m a u A (subAssign f v u) (subAssign f B A) where
  coprime := by
    rw [toNat_subAssign_of_le (Nat.le_of_lt hlt)]
    exact (Nat.coprime_sub_self_right (Nat.le_of_lt hlt)).mpr h.coprime
  pos := by
    rw [toNat_subAssign_of_le (Nat.le_of_lt hlt)]
    omega
  left := h.left
  right := by
    rw [toNat_subAssign_of_le (Nat.le_of_lt hlt)]
    exact h.right.sub hf h.left (Nat.le_of_lt hlt)

/-- The number of rounds that are enough for numbers of `s` bits: two odd numbers take one round
    before one of them can be halved. -/
def roundsFor (f : Field) (s : Nat) (u v : Word) : Nat :=
  2 * s + if Word.toNat f.DIGITS u % 2 = 1 ∧ Word.toNat f.DIGITS v % 2 = 1 then 1 else 0

/-- Halving `k` times takes `k` bits. -/
theorem lt_two_pow_sub {k s x : Nat} (hx : 0 < x) (h : 2 ^ k * x < 2 ^ s) :
    k ≤ s ∧ x < 2 ^ (s - k) := by
  have hle : k ≤ s := by
    have hpow : 2 ^ k < 2 ^ s := Nat.lt_of_le_of_lt (Nat.le_mul_of_pos_right _ hx) h
    exact Nat.le_of_lt ((Nat.pow_lt_pow_iff_right Nat.one_lt_two).mp hpow)
  refine ⟨hle, ?_⟩
  apply Nat.lt_of_mul_lt_mul_left (a := 2 ^ k)
  rwa [← Nat.pow_add, Nat.add_sub_cancel' hle]

/-- Two rounds are saved by a halving, and one by two numbers that were odd before. -/
theorem roundsFor_halved {s t k l rounds : Nat} {u v u' v' w x : Word} (hks : k ≤ s) (hlt : l ≤ t)
    (hrounds : roundsFor f (s + t) u v ≤ rounds + 1)
    (hu : Word.toNat f.DIGITS u = 2 ^ k * Word.toNat f.DIGITS u')
    (hv : Word.toNat f.DIGITS v = 2 ^ l * Word.toNat f.DIGITS v')
    (hoddu : Word.toNat f.DIGITS u' % 2 = 1) (hoddv : Word.toNat f.DIGITS v' % 2 = 1)
    (heven : Word.toNat f.DIGITS w % 2 = 0 ∨ Word.toNat f.DIGITS x % 2 = 0) :
    roundsFor f (s - k + (t - l)) w x ≤ rounds := by
  have hnone : roundsFor f (s - k + (t - l)) w x = 2 * (s - k + (t - l)) := by
    rw [roundsFor, if_neg (by omega), Nat.add_zero]
  rw [hnone]
  by_cases hkl : k + l = 0
  · obtain ⟨rfl, rfl⟩ : k = 0 ∧ l = 0 := by omega
    rw [Nat.pow_zero, Nat.one_mul] at hu hv
    rw [roundsFor, if_pos ⟨by omega, by omega⟩] at hrounds
    omega
  · have hle : 2 * (s + t) ≤ rounds + 1 := Nat.le_trans (Nat.le_add_right _ _) hrounds
    omega

/-- The loop finds the inverse within as many rounds as there are bits. -/
theorem invertLoop_eq (hf : f.Correct m) (hodd : m % 2 = 1) {a passes : Nat} {s t rounds : Nat}
    {u A v B : Word} (h : Euclid f m a u A v B) (hu : Word.toNat f.DIGITS u < 2 ^ s)
    (hv : Word.toNat f.DIGITS v < 2 ^ t) (hs : s ≤ passes) (ht : t ≤ passes)
    (hrounds : roundsFor f (s + t) u v ≤ rounds) :
    ∃ r, invertLoop f passes rounds u A v B = some r ∧
      Multiplier m a 1 (Word.toNat f.DIGITS r) := by
  induction rounds generalizing s t u A v B with
  | zero =>
    rw [roundsFor] at hrounds
    have hzero : t = 0 := by omega
    rw [hzero, Nat.pow_zero] at hv
    have hpos := h.pos
    omega
  | succ rounds ih =>
    by_cases hzero : Word.toNat f.DIGITS u = 0
    · -- the greatest common divisor is left
      have hone : Word.toNat f.DIGITS v = 1 := by
        have hcoprime := h.coprime
        rwa [hzero, Nat.coprime_zero_left] at hcoprime
      exact ⟨B, invertLoop_zero hf passes _ A v B hzero, hone ▸ h.right⟩
    · have hpos := Nat.pos_of_ne_zero hzero
      obtain ⟨u', A', k, hloopu, hu', hoddu, hA', hltA⟩ :=
        halve_eq hf hodd hs u A hpos hu h.left.lt
      obtain ⟨v', B', l, hloopv, hv', hoddv, hB', hltB⟩ :=
        halve_eq hf hodd ht v B h.pos hv h.right.lt
      have hodds : Euclid f m a u' A' v' B' :=
        { coprime := h.coprime.of_dvd ⟨2 ^ k, by rw [hu', Nat.mul_comm]⟩
            ⟨2 ^ l, by rw [hv', Nat.mul_comm]⟩
          pos := by omega
          left := h.left.halve hodd hu' hA' hltA
          right := h.right.halve hodd hv' hB' hltB }
      obtain ⟨hks, hu''⟩ := lt_two_pow_sub (k := k) (by omega) (hu' ▸ hu)
      obtain ⟨hlt, hv''⟩ := lt_two_pow_sub (k := l) (by omega) (hv' ▸ hv)
      rw [invertLoop_succ hf passes rounds hpos hloopu hloopv]
      split
      · next hle =>
        have hsub := toNat_subAssign_of_le hle
        exact ih (hodds.sub hf hle) (by omega) hv'' (by omega) (by omega)
          (roundsFor_halved hks hlt hrounds hu' hv' hoddu hoddv (Or.inl (by omega)))
      · next hnot =>
        have hsub := toNat_subAssign_of_le (Nat.le_of_not_le hnot)
        exact ih (hodds.sub' hf (Nat.lt_of_not_le hnot)) hu'' (by omega) (by omega) (by omega)
          (roundsFor_halved hks hlt hrounds hu' hv' hoddu hoddv (Or.inr (by omega)))

/-! ## Inversion -/

/-- A copy of the digits. -/
theorem toNat_copy (n : Nat) (w : Word) :
    Word.toNat n (fun i => if i < n then w i else 0) = Word.toNat n w :=
  toNat_congr fun _ hi => if_pos hi

/-- `invert` for any constants that are right, with an odd modulus that has no divisor in common
    with the operand. -/
theorem invert_eq (hf : f.Correct m) (hodd : m % 2 = 1) (hone : 1 < m) (a : Word)
    (hcoprime : (Word.toNat f.DIGITS a).Coprime m)
    {passes rounds : Nat} (hpasses : 32 * f.DIGITS ≤ passes)
    (hrounds : 128 * f.DIGITS + 1 ≤ rounds) :
    ∃ r, invert f passes rounds a = some r ∧
      Multiplier m (Word.toNat f.DIGITS a) 1 (Word.toNat f.DIGITS r) := by
  have hm := hf.mod_eq
  have hzero := toNat_ofNat_zero hf
  have hofNat : Word.toNat f.DIGITS (ofNat 1) = 1 := toNat_ofNat 1 hf.digits_pos
  have hcopy := toNat_copy f.DIGITS a
  have hcopyMod := toNat_copy f.DIGITS f.mod
  -- every word has 32 bits for each digit
  have hbits : ∀ w : Word, Word.toNat f.DIGITS w < 2 ^ (32 * f.DIGITS) := by
    intro w
    rw [Nat.pow_mul]
    exact toNat_lt f.DIGITS w
  have hstart : Euclid f m (Word.toNat f.DIGITS a) (fun i => if i < f.DIGITS then a i else 0)
      (ofNat 1) (fun i => if i < f.DIGITS then f.mod i else 0) (ofNat 0) :=
    { coprime := by rwa [hcopy, hcopyMod, hm]
      pos := by omega
      left := by
        rw [hcopy, hofNat]
        exact ⟨hone, by rw [Nat.one_mul]⟩
      right := by
        rw [hcopyMod, hzero, hm]
        exact ⟨by omega, by simp [Nat.ModEq]⟩ }
  -- each round takes a bit of `u` or `v`, so this many rounds are enough
  have hrounds' : roundsFor f (32 * f.DIGITS + 32 * f.DIGITS)
      (fun i => if i < f.DIGITS then a i else 0) (fun i => if i < f.DIGITS then f.mod i else 0) ≤
        rounds := by
    rw [roundsFor]
    split <;> omega
  exact invertLoop_eq hf hodd hstart (hbits _) (hbits _) hpasses hpasses hrounds'

/-- Inversion in both fields: some passes and rounds are enough for every operand, and the product
    of the operand and what is left is one modulo `_mod`. -/
theorem invert_correct {f : Field} {m : Nat}
    (hf : f = bignum16 ∧ m = 2 ^ 128 - 2 ^ 97 - 1 ∨ f = bignum17 ∧ m = 2 ^ 130 - 5) (a : Word)
    (hpos : 0 < Word.toNat f.DIGITS a) (hlt : Word.toNat f.DIGITS a < m) {passes rounds : Nat}
    (hpasses : 32 * f.DIGITS ≤ passes) (hrounds : 128 * f.DIGITS + 1 ≤ rounds) :
    ∃ b, invert f passes rounds a = some b ∧
      Word.toNat f.DIGITS a * Word.toNat f.DIGITS b % m = 1 ∧ Word.toNat f.DIGITS b < m := by
  have hfield : f.Correct m ∧ m.Prime ∧ m % 2 = 1 := by
    cases hf with
    | inl h =>
      rw [h.1, h.2]
      exact ⟨bignum16_correct, prime_bignum16, by decide⟩
    | inr h =>
      rw [h.1, h.2]
      exact ⟨bignum17_correct, prime_bignum17, by decide⟩
  obtain ⟨hcorrect, hprime, hodd⟩ := hfield
  have hcoprime := (Nat.coprime_of_lt_prime (by omega) hlt hprime).symm
  obtain ⟨b, hb, hmul⟩ := invert_eq hcorrect hodd hprime.one_lt a hcoprime hpasses hrounds
  refine ⟨b, hb, ?_, hmul.lt⟩
  have hmod := hmul.modEq
  rwa [Nat.ModEq, Nat.mod_eq_of_lt hprime.one_lt, Nat.mul_comm] at hmod

/-- The inverse of 7 modulo the prime of `Bignum<17>`. -/
theorem invert_correct_seven :
    ∃ b, invert bignum17 160 641 (ofNat 7) = some b ∧
      Word.toNat 5 (ofNat 7) * Word.toNat 5 b % (2 ^ 130 - 5) = 1 ∧
      Word.toNat 5 b < 2 ^ 130 - 5 :=
  invert_correct (Or.inr ⟨rfl, rfl⟩) (ofNat 7) (by decide) (by decide) (by decide) (by decide)

end Bignum

end Epos
