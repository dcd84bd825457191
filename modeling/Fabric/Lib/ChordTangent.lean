import Mathlib.AlgebraicGeometry.EllipticCurve.Affine.Point
import Mathlib.Tactic.LinearCombination

/-! Addition by chords and tangents on the curve `y ^ 2 = x ^ 3 + a * x + b` over a
field, and the group of the curve. -/
namespace Lib.ChordTangent
open WeierstrassCurve

section Formulas
variable {R : Type*} [CommRing R]

/-- The third intersection of the line, reflected. -/
def thirdX (m x1 x2 : R) : R := m ^ 2 - x1 - x2

def thirdY (m x1 y1 x2 : R) : R := m * (x1 - thirdX m x1 x2) - y1

/-- `m` is the slope of the chord through two points, or of the tangent where they
have one abscissa. -/
def IsSlope [DecidableEq R] (a x1 y1 x2 y2 m : R) : Prop :=
  if x1 = x2 then m * (2 * y1) = 3 * x1 ^ 2 + a else m * (x1 - x2) = y1 - y2

end Formulas

variable {F : Type*} [Field F] {a b m m' x1 y1 x2 y2 : F}

theorem thirdX_comm : thirdX m x1 x2 = thirdX m x2 x1 := by
  unfold thirdX
  ring

variable (a b) in
/-- The short Weierstrass curve. -/
def curve : WeierstrassCurve F := ⟨0, 0, 0, a, b⟩

theorem equation_curve : (curve a b).toAffine.Equation x1 y1 ↔ y1 ^ 2 = x1 ^ 3 + a * x1 + b := by
  rw [Affine.equation_iff]
  simp [curve]

theorem negY_curve : (curve a b).toAffine.negY x1 y1 = -y1 := by
  simp [curve]

/-- Away from the axis every point is nonsingular. -/
theorem nonsingular_curve (h : y1 ^ 2 = x1 ^ 3 + a * x1 + b) (hy : 2 * y1 ≠ 0) :
    (curve a b).toAffine.Nonsingular x1 y1 := by
  rw [Affine.nonsingular_iff']
  refine ⟨equation_curve.mpr h, Or.inr ?_⟩
  simpa [curve] using hy

/-- Two points of one abscissa are equal or opposite. -/
theorem eq_or_eq_neg (h1 : y1 ^ 2 = x1 ^ 3 + a * x1 + b) (h2 : y2 ^ 2 = x2 ^ 3 + a * x2 + b)
    (hx : x1 = x2) : y1 = y2 ∨ y1 = -y2 := by
  have h := Affine.Y_eq_of_X_eq (equation_curve.mpr h1) (equation_curve.mpr h2) hx
  rwa [negY_curve] at h

variable [DecidableEq F]

theorem isSlope_chord (hx : x1 ≠ x2) :
    IsSlope a x1 y1 x2 y2 m ↔ m = (y1 - y2) * (x1 - x2)⁻¹ := by
  rw [IsSlope, if_neg hx, ← div_eq_mul_inv, eq_div_iff (sub_ne_zero.mpr hx)]

theorem isSlope_tangent (hx : x1 = x2) (hy : 2 * y1 ≠ 0) :
    IsSlope a x1 y1 x2 y2 m ↔ m = (3 * x1 ^ 2 + a) * (2 * y1)⁻¹ := by
  rw [IsSlope, if_pos hx, ← div_eq_mul_inv, eq_div_iff hy]

theorem IsSlope.unique (hy : x1 = x2 → 2 * y1 ≠ 0) (h : IsSlope a x1 y1 x2 y2 m)
    (h' : IsSlope a x1 y1 x2 y2 m') : m = m' := by
  by_cases hx : x1 = x2
  · rw [isSlope_tangent hx (hy hx)] at h h'
    rw [h, h']
  · rw [isSlope_chord hx] at h h'
    rw [h, h']

/-- A chord has one slope from either end. -/
theorem IsSlope.symm (hx : x1 ≠ x2) (h : IsSlope a x1 y1 x2 y2 m) :
    IsSlope a x2 y2 x1 y1 m := by
  rw [IsSlope, if_neg hx] at h
  rw [IsSlope, if_neg hx.symm]
  linear_combination -h

theorem thirdY_comm (hx : x1 ≠ x2) (h : IsSlope a x1 y1 x2 y2 m) :
    thirdY m x1 y1 x2 = thirdY m x2 y2 x1 := by
  rw [IsSlope, if_neg hx] at h
  unfold thirdY
  have hX : thirdX m x2 x1 = thirdX m x1 x2 := thirdX_comm
  rw [hX]
  linear_combination h

section Point
variable (h1 : (curve a b).toAffine.Nonsingular x1 y1)
  (h2 : (curve a b).toAffine.Nonsingular x2 y2)

theorem slope_curve (hx : x1 = x2 → y1 = y2 ∧ 2 * y1 ≠ 0) (h : IsSlope a x1 y1 x2 y2 m) :
    (curve a b).toAffine.slope x1 x2 y1 y2 = m := by
  by_cases hx' : x1 = x2
  · obtain ⟨hy, h0⟩ := hx hx'
    have hne : y1 ≠ (curve a b).toAffine.negY x2 y2 := by
      rw [negY_curve, ← hy]
      intro h'
      exact h0 (by linear_combination h')
    rw [Affine.slope_of_Y_ne hx' hne, (isSlope_tangent hx' h0).mp h, negY_curve, ← div_eq_mul_inv]
    simp only [curve]
    ring_nf
  · rw [Affine.slope_of_X_ne hx', (isSlope_chord hx').mp h, div_eq_mul_inv]

/-- The chord and the tangent compute the sum of the group. -/
theorem some_add_some (hx : x1 = x2 → y1 = y2 ∧ 2 * y1 ≠ 0) (h : IsSlope a x1 y1 x2 y2 m) :
    ∃ h3, Affine.Point.some x1 y1 h1 + Affine.Point.some x2 y2 h2 =
      Affine.Point.some (thirdX m x1 x2) (thirdY m x1 y1 x2) h3 := by
  have hxy : ¬(x1 = x2 ∧ y1 = (curve a b).toAffine.negY x2 y2) := by
    rintro ⟨hx', hy⟩
    obtain ⟨hy', h0⟩ := hx hx'
    rw [negY_curve, ← hy'] at hy
    exact h0 (by linear_combination hy)
  have hX : (curve a b).toAffine.addX x1 x2 m = thirdX m x1 x2 := by
    simp [curve, thirdX]
  have hY : (curve a b).toAffine.addY x1 x2 y1 m = thirdY m x1 y1 x2 := by
    rw [Affine.addY, negY_curve, Affine.negAddY, hX, thirdY]
    ring
  have hadd : Affine.Point.some x1 y1 h1 + Affine.Point.some x2 y2 h2 = _ :=
    Affine.Point.add_some hxy
  have h3 := Affine.nonsingular_add h1 h2 hxy
  simp only [slope_curve hx h, hX, hY] at hadd h3
  exact ⟨h3, hadd⟩

theorem some_add_opposite (hx : x1 = x2) (hy : y1 = -y2) :
    Affine.Point.some x1 y1 h1 + Affine.Point.some x2 y2 h2 = 0 :=
  Affine.Point.add_of_Y_eq hx (by rw [negY_curve]; exact hy)

end Point
end Lib.ChordTangent
