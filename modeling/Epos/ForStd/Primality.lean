import Mathlib.Data.List.Prime
import Mathlib.NumberTheory.LucasPrimality

/-!
# Lucas's test

A number is prime when some `a` has the order `p - 1` modulo it. The powers are computed by
squaring, so that the test can be evaluated for numbers of a few hundred bits. Nothing here
mentions a number in particular.
-/

namespace Lucas

/-- `acc * a ^ n` modulo `m`, for an exponent of some bits. -/
def powMod (m : Nat) : Nat → Nat → Nat → Nat → Nat
  | 0, _, _, acc => acc
  | bits + 1, a, n, acc => powMod m bits (a * a % m) (n / 2) (if n % 2 = 1 then acc * a % m else acc)

variable {m bits n : Nat}

theorem powMod_modEq (h : n < 2 ^ bits) (a acc : Nat) :
    powMod m bits a n acc ≡ acc * a ^ n [MOD m] := by
  induction bits generalizing a n acc with
  | zero =>
    have hn : n = 0 := by simpa using h
    simp [powMod, hn, Nat.ModEq.refl]
  | succ bits ih =>
    -- one bit of the exponent goes with each round
    have hhalf : n / 2 < 2 ^ bits := by
      rw [Nat.pow_succ] at h
      omega
    have hsquare : (a * a % m) ^ (n / 2) ≡ a ^ (2 * (n / 2)) [MOD m] := by
      rw [Nat.pow_mul, Nat.pow_two]
      exact (Nat.mod_modEq (a * a) m).pow _
    have hstep := ih hhalf (a * a % m) (if n % 2 = 1 then acc * a % m else acc)
    rw [powMod]
    refine hstep.trans ?_
    split
    · -- an odd exponent multiplies the accumulator once more
      next hodd =>
      have hn : a ^ n = a * a ^ (2 * (n / 2)) := by
        rw [← Nat.pow_succ']
        congr 1
        omega
      rw [hn, ← Nat.mul_assoc]
      exact (Nat.mod_modEq (acc * a) m).mul hsquare
    · next heven =>
      have hn : a ^ n = a ^ (2 * (n / 2)) := by
        congr 1
        omega
      rw [hn]
      exact hsquare.mul_left acc

/-- A power is one modulo `p` exactly where the computed one is. -/
theorem pow_eq_one_iff {p : Nat} (h : n < 2 ^ bits) (a : Nat) :
    (a : ZMod p) ^ n = 1 ↔ powMod p bits a n 1 % p = 1 % p := by
  have hmod := powMod_modEq (m := p) h a 1
  rw [Nat.one_mul] at hmod
  rw [← Nat.cast_pow, ← Nat.cast_one, ZMod.natCast_eq_natCast_iff]
  exact ⟨fun h => hmod.trans h, fun h => hmod.symm.trans h⟩

/-- What is computed for a number, with the factors of the number before it. -/
def test (p bits a : Nat) (factors : List Nat) : Bool :=
  factors.prod + 1 = p && p ≤ 2 ^ bits && powMod p bits a (p - 1) 1 % p = 1 % p &&
    factors.all fun q => powMod p bits a ((p - 1) / q) 1 % p ≠ 1 % p

/-- Lucas's test, for factors that are prime. -/
theorem prime_of_test {p : Nat} (bits a : Nat) (factors : List Nat)
    (hprime : ∀ q ∈ factors, q.Prime) (h : test p bits a factors = true) : p.Prime := by
  simp only [test, Bool.and_eq_true, decide_eq_true_eq, List.all_eq_true] at h
  obtain ⟨⟨⟨hprod, hbits⟩, hone⟩, hne⟩ := h
  have hlt : p - 1 < 2 ^ bits := by omega
  apply lucas_primality p (a : ZMod p)
  · exact (pow_eq_one_iff hlt a).mpr hone
  · intro q hq hdvd
    -- a prime that divides `p - 1` is one of the factors
    have hmem : q ∈ factors := by
      have hdvd' : q ∣ factors.prod := by
        rwa [show factors.prod = p - 1 by omega]
      obtain ⟨r, hr, hqr⟩ := (Prime.dvd_prod_iff hq.prime).mp hdvd'
      rwa [(Nat.prime_dvd_prime_iff_eq hq (hprime r hr)).mp hqr]
    rw [ne_eq, pow_eq_one_iff (Nat.lt_of_le_of_lt (Nat.div_le_self _ _) hlt)]
    exact hne q hmem

/-! ## Certificates -/

/-- A line of a certificate: a number, a bound on its bits, an element of the order
    `number - 1` and the factors of `number - 1`. -/
structure Line where
  number : Nat
  bits : Nat
  root : Nat
  factors : List Nat

/-- Every line passes the test, with factors that are known or stand on a line before it. -/
def certified : List Nat → List Line → Bool
  | _, [] => true
  | known, l :: ls =>
    l.factors.all (known.contains ·) && test l.number l.bits l.root l.factors &&
      certified (l.number :: known) ls

theorem prime_of_certified {known : List Nat} {ls : List Line} (hknown : ∀ q ∈ known, q.Prime)
    (h : certified known ls = true) : ∀ l ∈ ls, l.number.Prime := by
  induction ls generalizing known with
  | nil => exact fun _ hl => absurd hl List.not_mem_nil
  | cons l ls ih =>
    simp only [certified, Bool.and_eq_true, List.all_eq_true, List.contains_iff_mem] at h
    obtain ⟨⟨hfactors, htest⟩, hrest⟩ := h
    have hl : l.number.Prime :=
      prime_of_test l.bits l.root l.factors (fun q hq => hknown q (hfactors q hq)) htest
    rw [List.forall_mem_cons]
    exact ⟨hl, ih (List.forall_mem_cons.mpr ⟨hl, hknown⟩) hrest⟩

end Lucas
