import Mathlib.AlgebraicGeometry.EllipticCurve.Affine.Point
import Mathlib.Tactic.LinearCombination

/-!
# Jacobian coordinates on a short Weierstrass curve

The curve `y² = x³ + a x + b` over a field of characteristic other than 2.
`JRep P X Y Z` says that `P` is the affine point `(X / Z², Y / Z³)`. Each of
the formulas rests on the slope times the new `Z`: `M = l · 2YZ` when doubling,
`r = l · H Z₁ Z₂` when adding.
-/

namespace ND

open WeierstrassCurve.Affine

variable {F : Type _} [Field F]

/-- The curve `y² = x³ + a x + b`. -/
def shortWeierstrass (a b : F) : WeierstrassCurve.Affine F := ⟨0, 0, 0, a, b⟩

variable {a b : F}

theorem shortWeierstrass_equation {x y : F} : (shortWeierstrass a b).Equation x y ↔ y ^ 2 = x ^ 3 + a * x + b := by
  rw [equation_iff]
  simp [shortWeierstrass]

theorem shortWeierstrass_negY (x y : F) : (shortWeierstrass a b).negY x y = -y := by
  simp [WeierstrassCurve.Affine.negY, shortWeierstrass]

theorem shortWeierstrass_addX (x₁ x₂ l : F) : (shortWeierstrass a b).addX x₁ x₂ l = l ^ 2 - x₁ - x₂ := by
  simp [addX, shortWeierstrass]

theorem shortWeierstrass_addY (x₁ x₂ y₁ l : F) :
    (shortWeierstrass a b).addY x₁ x₂ y₁ l = l * (x₁ - (l ^ 2 - x₁ - x₂)) - y₁ := by
  rw [addY, shortWeierstrass_negY, negAddY, shortWeierstrass_addX]
  ring

/-- The discriminant decides whether every point of the curve is nonsingular. -/
theorem shortWeierstrass_Δ : (shortWeierstrass a b).Δ = -16 * (4 * a ^ 3 + 27 * b ^ 2) := by
  simp only [WeierstrassCurve.Δ, WeierstrassCurve.b₂, WeierstrassCurve.b₄, WeierstrassCurve.b₆,
    WeierstrassCurve.b₈, shortWeierstrass]
  ring

/-- `P` is the affine point `(X / Z², Y / Z³)`. -/
def JRep : (shortWeierstrass a b).Point → F → F → F → Prop
  | .zero, _, _, _ => False
  | .some x y _, X, Y, Z => Z ≠ 0 ∧ X = x * Z ^ 2 ∧ Y = y * Z ^ 3

theorem JRep.affine {x y : F} (h : (shortWeierstrass a b).Nonsingular x y) : JRep (.some x y h) x y 1 :=
  ⟨one_ne_zero, by ring, by ring⟩

/-- The coordinates up to an equation of the field. -/
theorem JRep.of_eq {P : (shortWeierstrass a b).Point} {X Y Z X' Y' Z' : F} (h : JRep P X Y Z) (hX : X' = X)
    (hY : Y' = Y) (hZ : Z' = Z) : JRep P X' Y' Z' := by
  rwa [hX, hY, hZ]

/-- What represents a point determines its affine coordinates. -/
theorem JRep.exists_affine {P : (shortWeierstrass a b).Point} {X Y Z : F} (h : JRep P X Y Z) :
    ∃ x y hP, P = .some x y hP ∧ Z ≠ 0 ∧ X = x * Z ^ 2 ∧ Y = y * Z ^ 3 := by
  cases P with
  | zero => exact h.elim
  | some x y hP => exact ⟨x, y, hP, rfl, h⟩

section Group

variable [DecidableEq F] (h2 : (2 : F) ≠ 0)

/-- A point with `Y = 0` has order 2. -/
theorem JRep.double_eq_zero {P : (shortWeierstrass a b).Point} {X Z : F} (h : JRep P X 0 Z) : P + P = 0 := by
  obtain ⟨x, y, hP, rfl, hZ, -, hY⟩ := h.exists_affine
  have hy : y = 0 := (mul_eq_zero.mp hY.symm).resolve_right (pow_ne_zero 3 hZ)
  exact Point.add_self_of_Y_eq (by rw [shortWeierstrass_negY, hy, neg_zero])

include h2 in
/-- Doubling. -/
theorem JRep.double {P : (shortWeierstrass a b).Point} {X Y Z M X' : F} (h : JRep P X Y Z) (hY : Y ≠ 0)
    (hM : M = 3 * X ^ 2 + a * Z ^ 4) (hX' : X' = M ^ 2 - 8 * (X * Y ^ 2)) :
    JRep (P + P) X' (M * (4 * (X * Y ^ 2) - X') - 8 * Y ^ 4) (2 * Y * Z) := by
  obtain ⟨x, y, hP, rfl, hZ, rfl, rfl⟩ := h.exists_affine
  have hy : y ≠ 0 := fun hy => hY (by rw [hy, zero_mul])
  have hne : y ≠ (shortWeierstrass a b).negY x y := by
    rw [shortWeierstrass_negY]
    intro hyy
    exact hy ((mul_eq_zero.mp (by linear_combination hyy : 2 * y = 0)).resolve_left h2)
  rw [Point.add_self_of_Y_ne hne]
  let l := (shortWeierstrass a b).slope x x y y
  have hs : l * (2 * y) = 3 * x ^ 2 + a := by
    rw [show l = _ from slope_of_Y_ne rfl hne, shortWeierstrass_negY, sub_neg_eq_add, ← two_mul,
      div_mul_cancel₀ _ (mul_ne_zero h2 hy)]
    simp [shortWeierstrass]
  have hMl : M = l * (2 * (y * Z ^ 3) * Z) := by
    rw [hM]
    linear_combination -(Z ^ 4) * hs
  have hX'' : X' = (l ^ 2 - x - x) * (2 * (y * Z ^ 3) * Z) ^ 2 := by
    rw [hX', hMl]
    ring
  refine ⟨mul_ne_zero (mul_ne_zero h2 hY) hZ, ?_, ?_⟩
  · rw [shortWeierstrass_addX, hX'']
  · rw [shortWeierstrass_addY, hX'', hMl]
    ring

section Add

variable {P Q : (shortWeierstrass a b).Point} {X₁ Y₁ Z₁ X₂ Y₂ Z₂ : F} (hP : JRep P X₁ Y₁ Z₁)
  (hQ : JRep Q X₂ Y₂ Z₂)
include hP hQ

omit [DecidableEq F] in
/-- Equal coordinates after scaling to the common `Z₁ Z₂` are equal points. -/
theorem JRep.eq_of_scaled (hX : X₂ * Z₁ ^ 2 - X₁ * Z₂ ^ 2 = 0) (hY : Y₂ * Z₁ ^ 3 - Y₁ * Z₂ ^ 3 = 0) : P = Q := by
  obtain ⟨x₁, y₁, h₁, rfl, hZ₁, rfl, rfl⟩ := hP.exists_affine
  obtain ⟨x₂, y₂, h₂, rfl, hZ₂, rfl, rfl⟩ := hQ.exists_affine
  have hZ := mul_ne_zero hZ₁ hZ₂
  have hx : x₂ - x₁ = 0 :=
    (mul_eq_zero.mp (by linear_combination hX : (x₂ - x₁) * (Z₁ * Z₂) ^ 2 = 0)).resolve_right (pow_ne_zero 2 hZ)
  have hy : y₂ - y₁ = 0 :=
    (mul_eq_zero.mp (by linear_combination hY : (y₂ - y₁) * (Z₁ * Z₂) ^ 3 = 0)).resolve_right (pow_ne_zero 3 hZ)
  obtain rfl := sub_eq_zero.mp hx
  obtain rfl := sub_eq_zero.mp hy
  rfl

/-- Points with one `x` that are not equal are opposite. -/
theorem JRep.add_eq_zero (hX : X₂ * Z₁ ^ 2 - X₁ * Z₂ ^ 2 = 0) (hY : Y₂ * Z₁ ^ 3 - Y₁ * Z₂ ^ 3 ≠ 0) :
    P + Q = 0 := by
  obtain ⟨x₁, y₁, h₁, rfl, hZ₁, rfl, rfl⟩ := hP.exists_affine
  obtain ⟨x₂, y₂, h₂, rfl, hZ₂, rfl, rfl⟩ := hQ.exists_affine
  have hx : x₂ - x₁ = 0 :=
    (mul_eq_zero.mp (by linear_combination hX : (x₂ - x₁) * (Z₁ * Z₂) ^ 2 = 0)).resolve_right
      (pow_ne_zero 2 (mul_ne_zero hZ₁ hZ₂))
  obtain heq | hneg : Point.some x₁ y₁ h₁ = Point.some x₂ y₂ h₂ ∨ Point.some x₁ y₁ h₁ = -Point.some x₂ y₂ h₂ :=
    Point.X_eq_iff.mp (sub_eq_zero.mp hx).symm
  · obtain ⟨rfl, rfl⟩ := Point.some.inj heq
    exact absurd (by ring) hY
  · rw [hneg, neg_add_cancel]

/-- Addition of points with different `x`. -/
theorem JRep.add {H r X' : F} (hH : H = X₂ * Z₁ ^ 2 - X₁ * Z₂ ^ 2) (hr : r = Y₂ * Z₁ ^ 3 - Y₁ * Z₂ ^ 3)
    (hH0 : H ≠ 0) (hX' : X' = r ^ 2 - H ^ 3 - 2 * (X₁ * Z₂ ^ 2 * H ^ 2)) :
    JRep (P + Q) X' (r * (X₁ * Z₂ ^ 2 * H ^ 2 - X') - Y₁ * Z₂ ^ 3 * H ^ 3) (Z₁ * Z₂ * H) := by
  obtain ⟨x₁, y₁, h₁, rfl, hZ₁, rfl, rfl⟩ := hP.exists_affine
  obtain ⟨x₂, y₂, h₂, rfl, hZ₂, rfl, rfl⟩ := hQ.exists_affine
  have hHx : H = (x₂ - x₁) * (Z₁ * Z₂) ^ 2 := by rw [hH]; ring
  have hx : x₁ ≠ x₂ := fun hx => hH0 (by rw [hHx, hx]; ring)
  rw [Point.add_of_X_ne hx]
  let l := (shortWeierstrass a b).slope x₁ x₂ y₁ y₂
  have hl : l * (x₁ - x₂) = y₁ - y₂ := by
    rw [show l = _ from slope_of_X_ne hx, div_mul_cancel₀ _ (sub_ne_zero.mpr hx)]
  have hrl : r = l * (Z₁ * Z₂ * H) := by
    rw [hr, hHx]
    linear_combination ((Z₁ * Z₂) ^ 3) * hl
  have hX'' : X' = (l ^ 2 - x₁ - x₂) * (Z₁ * Z₂ * H) ^ 2 := by
    rw [hX', hrl]
    linear_combination -(H ^ 2) * hHx
  refine ⟨mul_ne_zero (mul_ne_zero hZ₁ hZ₂) hH0, ?_, ?_⟩
  · rw [shortWeierstrass_addX, hX'']
  · rw [shortWeierstrass_addY, hX'', hrl]
    ring

end Add

end Group

end ND
