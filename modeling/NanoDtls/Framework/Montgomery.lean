import Mathlib.AlgebraicGeometry.EllipticCurve.Affine.Point
import Mathlib.FieldTheory.IsAlgClosed.Basic
import Mathlib.Tactic.FieldSimp
import Mathlib.Tactic.LinearCombination

/-!
# Arithmetic on x-coordinates of a Montgomery curve

The curve `y² = x³ + A x² + x` over a field of characteristic other than 2
with `A² ≠ 4`, as a Weierstrass curve, so that its points form Mathlib's
group. `XRep P X Z` says that `(X : Z)` is the x-coordinate of `P`, with
`(X : 0)` for the point at infinity. Doubling (`XRep.double`) and differential
addition (`XRep.diffAdd`) hold for all points, the exceptional ones included,
as long as the difference has an x-coordinate that is not 0.
-/

namespace ND

open WeierstrassCurve.Affine

variable {F : Type _} [Field F]

/-- The Montgomery curve `y² = x³ + A x² + x`. -/
def montgomery (A : F) : WeierstrassCurve.Affine F := ⟨0, A, 0, 1, 0⟩

variable {A : F}

theorem montgomery_equation {x y : F} : (montgomery A).Equation x y ↔ y ^ 2 = x ^ 3 + A * x ^ 2 + x := by
  rw [equation_iff]
  simp [montgomery]

theorem montgomery_negY (x y : F) : (montgomery A).negY x y = -y := by
  simp [WeierstrassCurve.Affine.negY, montgomery]

theorem montgomery_addX (x₁ x₂ l : F) : (montgomery A).addX x₁ x₂ l = l ^ 2 - A - x₁ - x₂ := by
  simp [addX, montgomery]

/-- `(X : Z)` is the x-coordinate of `P`. -/
def XRep : (montgomery A).Point → F → F → Prop
  | .zero, X, Z => X ≠ 0 ∧ Z = 0
  | .some x _ _, X, Z => Z ≠ 0 ∧ X = x * Z

/-- The x-coordinate, 0 for the point at infinity. -/
def x0 : (montgomery A).Point → F
  | .zero => 0
  | .some x _ _ => x

theorem xRep_zero {X Z : F} : XRep (0 : (montgomery A).Point) X Z ↔ X ≠ 0 ∧ Z = 0 := Iff.rfl

theorem XRep.smul {P : (montgomery A).Point} {X Z c : F} (h : XRep P X Z) (hc : c ≠ 0) :
    XRep P (c * X) (c * Z) := by
  cases P with
  | zero => exact ⟨mul_ne_zero hc h.1, by rw [h.2, mul_zero]⟩
  | some x y hP => exact ⟨mul_ne_zero hc h.1, by rw [h.2]; ring⟩

/-- An affine point of order 2 has `x² ≠ 1`. -/
theorem sq_ne_one (hA : A ^ 2 ≠ 4) {x : F} (h : x ^ 3 + A * x ^ 2 + x = 0) : x ^ 2 - 1 ≠ 0 := by
  intro hx
  have h0 : A + 2 * x = 0 := by linear_combination h - (x + A) * hx
  exact hA (by linear_combination (A - 2 * x) * h0 + 4 * hx)

/-- The curve has no singular point. -/
theorem montgomery_nonsingular (h2 : (2 : F) ≠ 0) (hA : A ^ 2 ≠ 4) {x y : F} (h : (montgomery A).Equation x y) :
    (montgomery A).Nonsingular x y := by
  refine (nonsingular_iff _ _).mpr ⟨h, or_iff_not_imp_right.mpr fun hy => ?_⟩
  simp only [montgomery, zero_mul, sub_zero, not_not] at hy ⊢
  -- the tangent is vertical, so the point is of order 2
  have hy0 : y = 0 := (mul_eq_zero.mp (by linear_combination hy : 2 * y = 0)).resolve_left h2
  have h0 : x ^ 3 + A * x ^ 2 + x = 0 := by
    rw [← montgomery_equation.mp h, hy0]
    ring
  intro hx
  by_cases hx0 : x = 0
  · rw [hx0] at hx
    exact one_ne_zero (α := F) (by linear_combination -hx)
  · have hfactor : x ^ 2 + A * x + 1 = 0 := (mul_eq_zero.mp (by linear_combination h0 : x * _ = 0)).resolve_left hx0
    exact sq_ne_one hA h0 (by linear_combination -hx - 2 * hfactor)

/-- Over an algebraically closed field every element is the x-coordinate of a point. -/
theorem exists_x0_eq [IsAlgClosed F] (h2 : (2 : F) ≠ 0) (hA : A ^ 2 ≠ 4) (u : F) : ∃ P : (montgomery A).Point, x0 P = u := by
  obtain ⟨y, hy⟩ := IsAlgClosed.exists_pow_nat_eq (u ^ 3 + A * u ^ 2 + u) (n := 2) (by decide)
  exact ⟨.some u y (montgomery_nonsingular h2 hA (montgomery_equation.mpr hy)), rfl⟩

section Group

variable [DecidableEq F] (h2 : (2 : F) ≠ 0) (hA : A ^ 2 ≠ 4)
include h2 hA

/-- Doubling. -/
theorem XRep.double {P : (montgomery A).Point} {X Z : F} (h : XRep P X Z) :
    XRep (P + P) ((X ^ 2 - Z ^ 2) ^ 2) (4 * X * Z * (X ^ 2 + A * X * Z + Z ^ 2)) := by
  have h4 : (4 : F) ≠ 0 := by rw [show (4 : F) = 2 ^ 2 by norm_num]; exact pow_ne_zero 2 h2
  cases P with
  | zero =>
    obtain ⟨hX, rfl⟩ := h
    exact ⟨by simp [hX], by ring⟩
  | some x y hP =>
    obtain ⟨hZ, rfl⟩ := h
    have he : y ^ 2 = x ^ 3 + A * x ^ 2 + x := montgomery_equation.mp hP.1
    by_cases hy : y = 0
    · -- the tangent is vertical
      have h0 : x ^ 3 + A * x ^ 2 + x = 0 := by rw [← he, hy]; ring
      rw [Point.add_self_of_Y_eq (by rw [montgomery_negY, hy, neg_zero]), xRep_zero]
      refine ⟨?_, by linear_combination 4 * Z ^ 4 * h0⟩
      rw [show (x * Z) ^ 2 - Z ^ 2 = (x ^ 2 - 1) * Z ^ 2 by ring]
      exact pow_ne_zero 2 (mul_ne_zero (sq_ne_one hA h0) (pow_ne_zero 2 hZ))
    · have hne : y ≠ (montgomery A).negY x y := by
        rw [montgomery_negY]
        intro hyy
        exact hy ((mul_eq_zero.mp (by linear_combination hyy : 2 * y = 0)).resolve_left h2)
      rw [Point.add_self_of_Y_ne hne]
      have hs : (montgomery A).slope x x y y * (2 * y) = 3 * x ^ 2 + 2 * A * x + 1 := by
        rw [slope_of_Y_ne rfl hne, montgomery_negY, sub_neg_eq_add, ← two_mul,
          div_mul_cancel₀ _ (mul_ne_zero h2 hy)]
        simp [montgomery]
      refine ⟨?_, ?_⟩
      · rw [show 4 * (x * Z) * Z * ((x * Z) ^ 2 + A * (x * Z) * Z + Z ^ 2) = 4 * Z ^ 4 * y ^ 2 by rw [he]; ring]
        exact mul_ne_zero (mul_ne_zero h4 (pow_ne_zero 4 hZ)) (pow_ne_zero 2 hy)
      · rw [montgomery_addX]
        generalize (montgomery A).slope x x y y = l at hs
        linear_combination Z ^ 4 * (-(l * (2 * y) + (3 * x ^ 2 + 2 * A * x + 1)) * hs +
          4 * (l ^ 2) * he)

omit [DecidableEq F] h2 hA in
/-- The two chords through `(x₁, ±y₁)` and `(x₂, y₂)` meet the curve at x-coordinates of known product. -/
theorem chords_mul {x₁ y₁ x₂ y₂ l m : F} (h₁ : y₁ ^ 2 = x₁ ^ 3 + A * x₁ ^ 2 + x₁)
    (h₂ : y₂ ^ 2 = x₂ ^ 3 + A * x₂ ^ 2 + x₂) (hl : l * (x₁ - x₂) = y₁ - y₂) (hm : m * (x₁ - x₂) = y₁ + y₂)
    (hx : x₁ - x₂ ≠ 0) :
    (l ^ 2 - A - x₁ - x₂) * (m ^ 2 - A - x₁ - x₂) * (x₁ - x₂) ^ 2 = (x₁ * x₂ - 1) ^ 2 := by
  have hplus : (l ^ 2 - A - x₁ - x₂) * (x₁ - x₂) ^ 2 =
      x₁ * x₂ * (x₁ + x₂ + 2 * A) + x₁ + x₂ - 2 * y₁ * y₂ := by
    linear_combination (l * (x₁ - x₂) + (y₁ - y₂)) * hl + h₁ + h₂
  have hminus : (m ^ 2 - A - x₁ - x₂) * (x₁ - x₂) ^ 2 =
      x₁ * x₂ * (x₁ + x₂ + 2 * A) + x₁ + x₂ + 2 * y₁ * y₂ := by
    linear_combination (m * (x₁ - x₂) + (y₁ + y₂)) * hm + h₁ + h₂
  refine mul_right_cancel₀ (pow_ne_zero 2 hx) ?_
  calc (l ^ 2 - A - x₁ - x₂) * (m ^ 2 - A - x₁ - x₂) * (x₁ - x₂) ^ 2 * (x₁ - x₂) ^ 2
      = ((l ^ 2 - A - x₁ - x₂) * (x₁ - x₂) ^ 2) * ((m ^ 2 - A - x₁ - x₂) * (x₁ - x₂) ^ 2) := by ring
    _ = (x₁ * x₂ * (x₁ + x₂ + 2 * A) + x₁ + x₂) ^ 2 - 4 * y₁ ^ 2 * y₂ ^ 2 := by rw [hplus, hminus]; ring
    _ = (x₁ * x₂ - 1) ^ 2 * (x₁ - x₂) ^ 2 := by rw [h₁, h₂]; ring

/-- Points that are opposite: the difference is the double, whose x-coordinate is not 0 only if `x² ≠ 1`. -/
theorem sq_ne_one_of_double {x y : F} {hP : (montgomery A).Nonsingular x y}
    (hu : x0 (Point.some x y hP + Point.some x y hP) ≠ 0) : x ^ 2 - 1 ≠ 0 := by
  have hd := XRep.double h2 hA (P := Point.some x y hP) (X := x) (Z := 1) ⟨one_ne_zero, (mul_one x).symm⟩
  intro hx
  generalize Point.some x y hP + Point.some x y hP = D at hu hd
  cases D with
  | zero => exact hu rfl
  | some u v hD =>
    obtain ⟨hZ, hX⟩ := hd
    refine hu ((mul_eq_zero.mp ?_).resolve_right hZ)
    change u * _ = 0
    rw [← hX]
    linear_combination (x ^ 2 - 1) * hx

/-- Differential addition: from two points and the x-coordinate of their difference. -/
theorem XRep.diffAdd {P Q : (montgomery A).Point} {X₁ Z₁ X₂ Z₂ u : F} (hP : XRep P X₁ Z₁)
    (hQ : XRep Q X₂ Z₂) (hu : x0 (P - Q) = u) (hu0 : u ≠ 0) :
    XRep (P + Q) ((X₁ * X₂ - Z₁ * Z₂) ^ 2) (u * (X₁ * Z₂ - X₂ * Z₁) ^ 2) := by
  rcases P with _ | ⟨x₁, y₁, h₁⟩
  · -- the sum is `Q`, the difference `-Q`
    rw [← Point.zero_def] at hu ⊢
    rw [zero_sub] at hu
    obtain ⟨hX, rfl⟩ := hP
    rcases Q with _ | ⟨x₂, y₂, h₂⟩
    · exact absurd hu.symm hu0
    · obtain ⟨hZ, rfl⟩ := hQ
      obtain rfl : x₂ = u := hu
      rw [zero_add]
      refine ⟨mul_ne_zero hu0 (pow_ne_zero 2 ?_), by ring⟩
      rw [mul_zero, sub_zero]
      exact mul_ne_zero hX hZ
  rcases Q with _ | ⟨x₂, y₂, h₂⟩
  · rw [← Point.zero_def] at hu ⊢
    rw [sub_zero] at hu
    obtain ⟨hX, rfl⟩ := hQ
    obtain ⟨hZ, rfl⟩ := hP
    obtain rfl : x₁ = u := hu
    rw [add_zero]
    refine ⟨mul_ne_zero hu0 (pow_ne_zero 2 ?_), by ring⟩
    rw [mul_zero, zero_sub]
    exact neg_ne_zero.mpr (mul_ne_zero hX hZ)
  obtain ⟨hZ₁, rfl⟩ := hP
  obtain ⟨hZ₂, rfl⟩ := hQ
  have hZ : (Z₁ * Z₂) ^ 2 ≠ 0 := pow_ne_zero 2 (mul_ne_zero hZ₁ hZ₂)
  have e₁ := montgomery_equation.mp h₁.1
  have e₂ := montgomery_equation.mp h₂.1
  rw [show (x₁ * Z₁ * (x₂ * Z₂) - Z₁ * Z₂) ^ 2 = (x₁ * x₂ - 1) ^ 2 * (Z₁ * Z₂) ^ 2 by ring,
    show u * (x₁ * Z₁ * Z₂ - x₂ * Z₂ * Z₁) ^ 2 = u * (x₁ - x₂) ^ 2 * (Z₁ * Z₂) ^ 2 by ring]
  by_cases hx : x₁ = x₂
  · obtain heq | hneg : Point.some x₁ y₁ h₁ = Point.some x₂ y₂ h₂ ∨
        Point.some x₁ y₁ h₁ = -Point.some x₂ y₂ h₂ := Point.X_eq_iff.mp hx
    · rw [heq, sub_self] at hu
      exact absurd hu.symm hu0
    · rw [show Point.some x₁ y₁ h₁ - Point.some x₂ y₂ h₂ = Point.some x₁ y₁ h₁ + Point.some x₁ y₁ h₁ by
        rw [sub_eq_add_neg, ← hneg]] at hu
      have hne := sq_ne_one_of_double h2 hA (by rw [hu]; exact hu0)
      rw [show Point.some x₁ y₁ h₁ + Point.some x₂ y₂ h₂ = 0 by rw [hneg, neg_add_cancel], xRep_zero, ← hx]
      refine ⟨mul_ne_zero (pow_ne_zero 2 ?_) hZ, by ring⟩
      rw [← pow_two]
      exact hne
  · have hx' : x₁ - x₂ ≠ 0 := sub_ne_zero.mpr hx
    have hl : (montgomery A).slope x₁ x₂ y₁ y₂ * (x₁ - x₂) = y₁ - y₂ := by
      rw [slope_of_X_ne hx, div_mul_cancel₀ _ hx']
    have hm : (montgomery A).slope x₁ x₂ y₁ ((montgomery A).negY x₂ y₂) * (x₁ - x₂) = y₁ + y₂ := by
      rw [slope_of_X_ne hx, div_mul_cancel₀ _ hx', montgomery_negY, sub_neg_eq_add]
    rw [sub_eq_add_neg, Point.neg_some, Point.add_of_X_ne hx] at hu
    rw [Point.add_of_X_ne hx]
    have hu' : (montgomery A).addX x₁ x₂ ((montgomery A).slope x₁ x₂ y₁ ((montgomery A).negY x₂ y₂)) = u := hu
    rw [montgomery_addX] at hu'
    have hmul := chords_mul e₁ e₂ hl hm hx'
    refine ⟨mul_ne_zero (mul_ne_zero hu0 (pow_ne_zero 2 hx')) hZ, ?_⟩
    rw [montgomery_addX, ← hmul, hu']
    ring

end Group

/-! ## The affine x-coordinate -/

theorem XRep.div {P : (montgomery A).Point} {X Z : F} (h : XRep P X Z) : X / Z = x0 P := by
  cases P with
  | zero => rw [h.2, div_zero]; rfl
  | some x y hP =>
    obtain ⟨hZ, rfl⟩ := h
    exact mul_div_cancel_right₀ x hZ

theorem x0_neg (P : (montgomery A).Point) : x0 (-P) = x0 P := by
  cases P <;> rfl

/-- A point with x-coordinate 0 is infinity or of order 2. -/
theorem add_self_of_x0_eq_zero [DecidableEq F] {P : (montgomery A).Point} (h : x0 P = 0) : P + P = 0 := by
  cases P with
  | zero => exact add_zero _
  | some x y hP =>
    obtain rfl : x = 0 := h
    have he : y ^ 2 = 0 := by rw [montgomery_equation.mp hP.1]; ring
    exact Point.add_self_of_Y_eq (by rw [montgomery_negY, pow_eq_zero_iff two_ne_zero |>.mp he, neg_zero])

/-- The multiples of a point with x-coordinate 0 have x-coordinate 0. -/
theorem x0_nsmul_of_x0_eq_zero [DecidableEq F] {P : (montgomery A).Point}
    (h : x0 P = 0) (k : Nat) : x0 (k • P) = 0 := by
  have hdouble := add_self_of_x0_eq_zero h
  obtain ⟨j, rfl | rfl⟩ := Nat.even_or_odd' k
  · rw [mul_nsmul, two_nsmul, hdouble, nsmul_zero]; rfl
  · rw [add_nsmul, one_nsmul, mul_nsmul, two_nsmul, hdouble, nsmul_zero, zero_add, h]

/-- The x-coordinate of a double. With denominator 0 the quotient is 0, as is that of infinity. -/
theorem x0_double [DecidableEq F] (h2 : (2 : F) ≠ 0) (hA : A ^ 2 ≠ 4) (P : (montgomery A).Point) :
    x0 (P + P) = (x0 P ^ 2 - 1) ^ 2 / (4 * x0 P * (x0 P ^ 2 + A * x0 P + 1)) := by
  cases P with
  | zero =>
    change (0 : F) = (0 ^ 2 - 1) ^ 2 / (4 * 0 * (0 ^ 2 + A * 0 + 1))
    rw [mul_zero, zero_mul, div_zero]
  | some x y h =>
    have hd := XRep.double h2 hA (P := Point.some x y h) (X := x) (Z := 1) ⟨one_ne_zero, (mul_one x).symm⟩
    rw [← hd.div]
    simp only [x0, mul_one, one_pow]

/-- Two points other than infinity with the same x-coordinate are equal or opposite. -/
theorem x0_eq_iff {P Q : (montgomery A).Point} (hP : P ≠ 0) (hQ : Q ≠ 0) : x0 P = x0 Q ↔ P = Q ∨ P = -Q := by
  cases P with
  | zero => exact absurd rfl hP
  | some x y h =>
    cases Q with
    | zero => exact absurd rfl hQ
    | some x' y' h' => exact Point.X_eq_iff

end ND
