import Epos.Utility.DiffieHellman
import Mathlib.AlgebraicGeometry.EllipticCurve.Affine.Formula
import Mathlib.Tactic.FieldSimp
import Mathlib.Tactic.LinearCombination

/-!
# Doubling and adding in Jacobian coordinates

A point `(x, y, z)` stands for the affine point `(x / z², y / z³)` of `y² = x³ - 3x + b`. The
steps that `jacobian_double` and `add_jacobian_affine` make in place come to a few polynomials,
which are what the tangent and the chord rule say, multiplied by powers of the new `z`.
-/

namespace Epos

namespace DiffieHellman

variable {F : Type} [Field F]

/-! ## Curves -/

/-- The curve `y² = x³ - 3x + b`. -/
def curve (b : F) : WeierstrassCurve.Affine F where
  a₁ := 0
  a₂ := 0
  a₃ := 0
  a₄ := -(3 : Nat)
  a₆ := b

/-- The coefficients of the curve. -/
@[simp] theorem curve_a₁ (b : F) : (curve b).a₁ = 0 := rfl
@[simp] theorem curve_a₂ (b : F) : (curve b).a₂ = 0 := rfl
@[simp] theorem curve_a₃ (b : F) : (curve b).a₃ = 0 := rfl
@[simp] theorem curve_a₄ (b : F) : (curve b).a₄ = -3 := rfl
@[simp] theorem curve_a₆ (b : F) : (curve b).a₆ = b := rfl

/-- The equation of the curve. -/
theorem equation_curve_iff (b x y : F) : (curve b).Equation x y ↔ y ^ 2 = x ^ 3 - 3 * x + b := by
  rw [WeierstrassCurve.Affine.equation_iff]
  simp [sub_eq_add_neg]

/-- The opposite point. -/
theorem negY_curve (b x y : F) : (curve b).negY x y = -y := by
  simp [WeierstrassCurve.Affine.negY]

/-- The coordinates stand for an affine point. -/
structure Point.Represents (p : Point F) (x y : F) : Prop where
  z_ne : p.z ≠ 0
  x_eq : p.x = x * p.z ^ 2
  y_eq : p.y = y * p.z ^ 3

/-- The equation of the curve in Jacobian coordinates. -/
def Point.OnCurve (b : F) (p : Point F) : Prop :=
  p.y ^ 2 = p.x ^ 3 - (3 : Nat) * p.x * p.z ^ 4 + b * p.z ^ 6

/-- The equation in Jacobian coordinates. -/
theorem onCurve_iff_eq {p : Point F} {b : F} :
    p.OnCurve b ↔ p.y ^ 2 = p.x ^ 3 - 3 * p.x * p.z ^ 4 + b * p.z ^ 6 := Iff.rfl

namespace Point.Represents

variable {p : Point F} {b x y : F}

/-- A point is on the curve exactly if what it represents is. -/
theorem onCurve_iff (h : p.Represents x y) : p.OnCurve b ↔ (curve b).Equation x y := by
  have hz := pow_ne_zero 6 h.z_ne
  rw [equation_curve_iff, onCurve_iff_eq, h.x_eq, h.y_eq]
  constructor
  · intro heq
    apply mul_right_cancel₀ hz
    linear_combination heq
  · intro heq
    linear_combination p.z ^ 6 * heq

end Point.Represents

/-- A point with `z ≠ 0` represents an affine one. -/
theorem Point.represents (p : Point F) (hz : p.z ≠ 0) :
    p.Represents (p.x / p.z ^ 2) (p.y / p.z ^ 3) where
  z_ne := hz
  x_eq := by rw [div_mul_cancel₀ _ (pow_ne_zero 2 hz)]
  y_eq := by rw [div_mul_cancel₀ _ (pow_ne_zero 3 hz)]

/-! ## The steps in place -/

/-- The doubling of the source as formulas. -/
theorem jacobian_double_eq (p : Point F) :
    jacobian_double p =
      let M := 3 * (p.x - p.z ^ 2) * (p.x + p.z ^ 2)
      let S := 4 * p.x * p.y ^ 2
      { x := M ^ 2 - 2 * S
        y := M * (S - (M ^ 2 - 2 * S)) - 8 * p.y ^ 4
        z := 2 * p.y * p.z } := by
  ext <;> simp only [jacobian_double] <;> ring

/-- The addition of the source as formulas. -/
theorem add_jacobian_affine_eq (p q : Point F) :
    add_jacobian_affine p q =
      let H := q.x * p.z ^ 2 - p.x
      let R := q.y * p.z ^ 3 - p.y
      { x := R ^ 2 - H ^ 3 - 2 * p.x * H ^ 2
        y := R * (p.x * H ^ 2 - (R ^ 2 - H ^ 3 - 2 * p.x * H ^ 2)) - p.y * H ^ 3
        z := p.z * H } := by
  ext <;> simp only [add_jacobian_affine] <;> ring

/-! ## The tangent and the chord -/

section Line

variable {p q : Point F} {b x y : F}

/-- What a line of the slope `l` makes of a point with the coordinate `x₂` of the other one. -/
def lineX (l x₁ x₂ : F) : F := l ^ 2 - x₁ - x₂

def lineY (l x₁ x₂ y₁ : F) : F := l * (x₁ - lineX l x₁ x₂) - y₁

/-- The first coordinate of a sum. -/
theorem addX_curve (b l x₁ x₂ : F) : (curve b).addX x₁ x₂ l = lineX l x₁ x₂ := by
  simp [WeierstrassCurve.Affine.addX, lineX]

/-- The second coordinate of a sum. -/
theorem addY_curve (b l x₁ x₂ y₁ : F) : (curve b).addY x₁ x₂ y₁ l = lineY l x₁ x₂ y₁ := by
  rw [WeierstrassCurve.Affine.addY, negY_curve, WeierstrassCurve.Affine.negAddY, addX_curve, lineY]
  ring

/-- With the slope of the tangent, `M` is a multiple of it. -/
theorem Point.Represents.double (h : p.Represents x y) (h2 : (2 : F) ≠ 0) (hy : p.y ≠ 0) {l : F}
    (hl : l * (2 * y) = 3 * x ^ 2 - 3) :
    (jacobian_double p).Represents (lineX l x x) (lineY l x x y) := by
  have hx' := h.x_eq
  have hy' := h.y_eq
  have hM : 3 * (p.x - p.z ^ 2) * (p.x + p.z ^ 2) = l * (2 * y) * p.z ^ 4 := by
    rw [hl, hx']
    ring
  rw [jacobian_double_eq, hM, lineX, lineY, lineX]
  constructor
  · exact mul_ne_zero (mul_ne_zero h2 hy) h.z_ne
  · rw [hx', hy']
    ring
  · rw [hx', hy']
    ring

/-- With the slope of the chord, `R` is a multiple of it. -/
theorem Point.Represents.add (h : p.Represents x y) (hne : x ≠ q.x) {l : F}
    (hl : l * (x - q.x) = y - q.y) :
    (add_jacobian_affine p q).Represents (lineX l x q.x) (lineY l x q.x y) := by
  have hx' := h.x_eq
  have hy' := h.y_eq
  have hH : q.x * p.z ^ 2 - p.x = (q.x - x) * p.z ^ 2 := by
    rw [hx']
    ring
  have hR : q.y * p.z ^ 3 - p.y = l * (q.x - x) * p.z ^ 3 := by
    rw [hy']
    linear_combination p.z ^ 3 * hl
  rw [add_jacobian_affine_eq, hH, hR, lineX, lineY, lineX]
  constructor
  · exact mul_ne_zero h.z_ne (mul_ne_zero (sub_ne_zero.mpr hne.symm) (pow_ne_zero 2 h.z_ne))
  · rw [hx']
    ring
  · rw [hx', hy']
    ring

end Line

/-! ## The formulas -/

section Formulas

variable [DecidableEq F]

/-- The sum of two affine points of the curve by the tangent rule, where they are one point, or
    the chord rule. -/
def sumX (b x₁ y₁ x₂ y₂ : F) : F :=
  (curve b).addX x₁ x₂ ((curve b).slope x₁ x₂ y₁ y₂)

def sumY (b x₁ y₁ x₂ y₂ : F) : F :=
  (curve b).addY x₁ x₂ y₁ ((curve b).slope x₁ x₂ y₁ y₂)

/-- The slope of a tangent. -/
theorem slope_tangent (b : F) {x y : F} (hy : 2 * y ≠ 0) :
    (curve b).slope x x y y * (2 * y) = 3 * x ^ 2 - 3 := by
  have hne : y ≠ (curve b).negY x y := by
    intro heq
    rw [negY_curve] at heq
    apply hy
    linear_combination heq
  rw [WeierstrassCurve.Affine.slope_of_Y_ne rfl hne, negY_curve]
  have hden : y - -y = 2 * y := by ring
  rw [hden, div_mul_cancel₀ _ hy]
  simp
  ring

/-- The slope of a chord. -/
theorem slope_chord (b : F) {x₁ x₂ : F} (y₁ y₂ : F) (hne : x₁ ≠ x₂) :
    (curve b).slope x₁ x₂ y₁ y₂ * (x₁ - x₂) = y₁ - y₂ := by
  rw [WeierstrassCurve.Affine.slope_of_X_ne hne, div_mul_cancel₀ _ (sub_ne_zero.mpr hne)]

/-- For every curve, every point `p` of it in Jacobian coordinates and every affine point `q`. The
    tangent rule needs a field in which two is not zero. -/
theorem jacobian_formulas_correct (b : F) (p q : Point F) (hz : p.z ≠ 0)
    (hp : p.OnCurve b) (hq : q.y ^ 2 = q.x ^ 3 - 3 * q.x + b) :
    let x := p.x / p.z ^ 2
    let y := p.y / p.z ^ 3
    ((2 : F) ≠ 0 → p.y ≠ 0 →
      (jacobian_double p).Represents (sumX b x y x y) (sumY b x y x y) ∧
        (jacobian_double p).OnCurve b) ∧
    (x ≠ q.x →
      (add_jacobian_affine p q).Represents (sumX b x y q.x q.y) (sumY b x y q.x q.y) ∧
        (add_jacobian_affine p q).OnCurve b) := by
  intro x y
  have hrep := p.represents hz
  have hcurve : (curve b).Equation x y := hrep.onCurve_iff.mp hp
  have hcurve' : (curve b).Equation q.x q.y := (equation_curve_iff b q.x q.y).mpr hq
  constructor
  · intro h2 hy
    have hy' : 2 * y ≠ 0 := mul_ne_zero h2 (div_ne_zero hy (pow_ne_zero 3 hz))
    have hdouble := hrep.double h2 hy (slope_tangent b hy')
    rw [← addX_curve b, ← addY_curve b] at hdouble
    refine ⟨hdouble, hdouble.onCurve_iff.mpr ?_⟩
    apply WeierstrassCurve.Affine.equation_add hcurve hcurve
    -- the tangent is not vertical
    rintro ⟨-, heq⟩
    rw [negY_curve] at heq
    apply hy'
    linear_combination heq
  · intro hne
    have hadd := hrep.add hne (slope_chord b y q.y hne)
    rw [← addX_curve b, ← addY_curve b] at hadd
    refine ⟨hadd, hadd.onCurve_iff.mpr ?_⟩
    apply WeierstrassCurve.Affine.equation_add hcurve hcurve'
    exact fun h => hne h.1

/-- The point `(1, 1)` of `y² = x³ - 3x + 3` with a `z` of 2, doubled, and added to `(-2, 1)`. -/
theorem jacobian_formulas_correct_rat :
    (jacobian_double { x := 4, y := 8, z := 2 } : Point ℚ).Represents (-2) (-1) ∧
    (add_jacobian_affine { x := 4, y := 8, z := 2 } { x := -2, y := 1, z := 1 } :
      Point ℚ).Represents 1 (-1) := by
  obtain ⟨hdouble, hadd⟩ := jacobian_formulas_correct (F := ℚ) 3
    { x := 4, y := 8, z := 2 } { x := -2, y := 1, z := 1 } (by norm_num)
    (by norm_num [onCurve_iff_eq]) (by norm_num)
  constructor
  · have hrep := (hdouble (by norm_num) (by norm_num)).1
    simp only [sumX, sumY, addX_curve, addY_curve] at hrep
    norm_num [WeierstrassCurve.Affine.slope, negY_curve, lineX, lineY] at hrep
    exact hrep
  · have hrep := (hadd (by norm_num)).1
    simp only [sumX, sumY, addX_curve, addY_curve] at hrep
    norm_num [WeierstrassCurve.Affine.slope, negY_curve, lineX, lineY] at hrep
    exact hrep

end Formulas

end DiffieHellman

end Epos
