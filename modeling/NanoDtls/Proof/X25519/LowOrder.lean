import NanoDtls.Proof.X25519.Order
import Mathlib.NumberTheory.LegendreSymbol.Basic

/-!
# Coordinates of low order

Doubling is a function of the coordinate (`double`). Over the prime field 0, 1,
-1 and two more elements are all that two doublings take to 0
(`double_double_eq_zero_iff`), on the curve or on its twist.
-/

namespace ND.Proof.X25519

open ND.Impl ND.Impl.X25519
open ND.Spec.X25519 (p decodeScalar25519 decodeUCoordinate)
open WeierstrassCurve.Affine (Point)

/-! ## Squares -/

/-- The coordinates of the points of order 8. -/
def order8 : Nat := 325606250916557431795983626356110631294008115727848805560023387167927233504
def order8' : Nat := 39382357235489614581723060781553021112529911719440698176882885853963445705823

/-- The sum of the other two roots of the polynomial of which `order8` and `order8'` are roots. -/
def otherSum : Nat := 18188081132251925698266448096434822182811072497651735037285882762825191880626

/-- The numbers of which the proofs below need that they are not squares. -/
def nonSquares : List Nat := [486662 ^ 2 - 4, p + 2 - 486662, otherSum ^ 2 - 4]

theorem powMod_nonSquares : ∀ a ∈ nonSquares, a % p ≠ 0 ∧ powMod p 255 a (p / 2) ≠ 1 := by decide +kernel

/-- Euler's criterion. -/
theorem not_isSquare_natCast {a : Nat} (hmem : a ∈ nonSquares) : ¬ IsSquare (a : F25519) := by
  obtain ⟨ha, h⟩ := powMod_nonSquares a hmem
  have ha' : (a : F25519) ≠ 0 := fun h0 => ha (Nat.mod_eq_zero_of_dvd ((ZMod.natCast_eq_zero_iff a p).mp h0))
  rw [ZMod.euler_criterion p ha']
  intro hpow
  rw [powMod_eq _ _ _ _ (by decide)] at h
  have hcast : ((a ^ (p / 2) : Nat) : F25519) = (1 : Nat) := by rw [Nat.cast_pow, hpow, Nat.cast_one]
  rw [ZMod.natCast_eq_natCast_iff'] at hcast
  exact h (hcast.trans (by decide))

theorem order8_mul : (order8 : F25519) * order8' = 1 := by
  rw [← Nat.cast_mul, ← Nat.cast_one, ZMod.natCast_eq_natCast_iff']
  decide

theorem order8_sum : (order8 : F25519) + order8' + otherSum = 4 := by
  rw [← Nat.cast_add, ← Nat.cast_add, ← Nat.cast_ofNat, ZMod.natCast_eq_natCast_iff']
  decide

theorem order8_prod : ((order8 : F25519) + order8') * otherSum + 4 + 4 * 486662 = 0 := by
  have h : (((order8 + order8') * otherSum + 4 + 4 * 486662 : Nat) : F25519) = (0 : Nat) := by
    rw [ZMod.natCast_eq_natCast_iff']
    decide
  push_cast at h
  exact h

/-! ## Doubling -/

/-- The coordinate of twice a point. -/
def double (x : F25519) : F25519 := (x ^ 2 - 1) ^ 2 / (4 • x * (x ^ 2 + coeffA * x + 1))

theorem double_eq (x : F25519) : double x = (x ^ 2 - 1) ^ 2 / (4 * x * (x ^ 2 + 486662 * x + 1)) := by
  rw [double, nsmul_eq_mul, Nat.cast_ofNat]
  rfl

theorem four_ne_zero' : (4 : F25519) ≠ 0 := natCast_ne_zero (n := 4) (by decide) (by decide)

/-- The curve has one point of order 2. -/
theorem quadratic_ne_zero (x : F25519) : x ^ 2 + 486662 * x + 1 ≠ 0 := by
  intro h
  have hsquare : ¬ IsSquare ((486662 ^ 2 - 4 : Nat) : F25519) := not_isSquare_natCast (.head _)
  refine hsquare ⟨2 * x + 486662, ?_⟩
  rw [Nat.cast_sub (by decide), Nat.cast_pow]
  push_cast
  linear_combination -4 * h

theorem double_eq_zero_iff {x : F25519} : double x = 0 ↔ x = 0 ∨ x = 1 ∨ x = -1 := by
  rw [double_eq, div_eq_zero_iff, pow_eq_zero_iff two_ne_zero, mul_eq_zero, mul_eq_zero, or_iff_left (quadratic_ne_zero x),
    or_iff_right four_ne_zero', sub_eq_zero, sq, mul_self_eq_one_iff, or_comm]

/-- The equation of doubling, without a quotient. -/
theorem double_equation {x c : F25519} (hc : c ≠ 0) (h : double x = c) :
    x ≠ 0 ∧ (x ^ 2 - 1) ^ 2 = c * (4 * x * (x ^ 2 + 486662 * x + 1)) := by
  have hx : x ≠ 0 := by
    rintro rfl
    exact hc (h.symm.trans (double_eq_zero_iff.mpr (.inl rfl)))
  refine ⟨hx, (div_eq_iff ?_).mp (double_eq x ▸ h)⟩
  exact mul_ne_zero (mul_ne_zero four_ne_zero' hx) (quadratic_ne_zero x)

/-- What is the double of an element of the field gives a square. -/
theorem isSquare_of_double {x c : F25519} (hc : c ≠ 0) (h : double x = c) : IsSquare (c ^ 2 + 486662 * c + 1) := by
  obtain ⟨hx, heq⟩ := double_equation hc h
  have h2x : 2 * x ≠ 0 := mul_ne_zero two_ne_zero' hx
  refine ⟨(x ^ 2 + 1 - 2 * c * x) / (2 * x), ?_⟩
  rw [div_mul_div_comm, eq_div_iff (mul_ne_zero h2x h2x)]
  linear_combination -heq

theorem double_ne_neg_one (x : F25519) : double x ≠ -1 := by
  intro h
  have hsquare : ¬ IsSquare ((p + 2 - 486662 : Nat) : F25519) := not_isSquare_natCast (.tail _ (.head _))
  apply hsquare
  have h' := isSquare_of_double (neg_ne_zero.mpr one_ne_zero) h
  rw [Nat.cast_sub (by decide), Nat.cast_add, ZMod.natCast_self, zero_add]
  push_cast
  convert h' using 1
  ring

theorem double_eq_one_iff {x : F25519} : double x = 1 ↔ x = order8 ∨ x = order8' := by
  have hfactor : (x ^ 2 - 1) ^ 2 - 4 * x * (x ^ 2 + 486662 * x + 1) =
      (x - order8) * (x - order8') * (x ^ 2 - otherSum * x + 1) := by
    linear_combination (x ^ 3 + x) * order8_sum - x ^ 2 * order8_prod - (x ^ 2 - otherSum * x + 1) * order8_mul
  constructor
  · intro h
    obtain ⟨-, heq⟩ := double_equation one_ne_zero h
    rw [one_mul, ← sub_eq_zero, hfactor, mul_eq_zero, mul_eq_zero, sub_eq_zero, sub_eq_zero] at heq
    refine heq.resolve_right fun hroot => ?_
    -- the other two roots are not in the field
    have hsquare : ¬ IsSquare ((otherSum ^ 2 - 4 : Nat) : F25519) :=
      not_isSquare_natCast (.tail _ (.tail _ (.head _)))
    refine hsquare ⟨2 * x - otherSum, ?_⟩
    rw [Nat.cast_sub (by decide), Nat.cast_pow]
    push_cast
    linear_combination -4 * hroot
  · intro h
    have heq : (x ^ 2 - 1) ^ 2 = 4 * x * (x ^ 2 + 486662 * x + 1) := by
      rw [← sub_eq_zero, hfactor, mul_eq_zero, mul_eq_zero, sub_eq_zero, sub_eq_zero]
      exact .inl h
    have hx : x ≠ 0 := by
      rintro rfl
      exact zero_ne_one (α := F25519) (by linear_combination -heq)
    rw [double_eq, heq, div_self (mul_ne_zero (mul_ne_zero four_ne_zero' hx) (quadratic_ne_zero x))]

/-- The elements that two doublings take to 0. -/
def LowOrder (x : F25519) : Prop := x = 0 ∨ x = 1 ∨ x = -1 ∨ x = order8 ∨ x = order8'

theorem double_double_eq_zero_iff {x : F25519} : double (double x) = 0 ↔ LowOrder x := by
  rw [double_eq_zero_iff, double_eq_zero_iff, double_eq_one_iff, or_iff_left (double_ne_neg_one x), LowOrder]
  tauto

/-! ## Points -/

theorem x0_double_map (P : Curve.Point) {x : F25519} (h : x0 P = algebraMap F25519 K25519 x) :
    x0 (P + P) = algebraMap F25519 K25519 (double x) := by
  rw [x0_double two_ne_zero_closure coeff_sq_ne_four, h, double, nsmul_eq_mul, Nat.cast_ofNat]
  simp only [map_div₀, map_pow, map_sub, map_mul, map_add, map_one, map_ofNat]

/-- The five elements, as numbers. -/
def lowOrder : List Nat := [0, 1, p - 1, order8, order8']

theorem mem_lowOrder_iff {n : Nat} (hn : n < p) : n ∈ lowOrder ↔ LowOrder (n : F25519) := by
  have hcast : ∀ m, m < p → (n = m ↔ (n : F25519) = m) := by
    intro m hm
    rw [ZMod.natCast_eq_natCast_iff', Nat.mod_eq_of_lt hn, Nat.mod_eq_of_lt hm]
  have hneg : ((p - 1 : Nat) : F25519) = -1 := by
    rw [Nat.cast_sub (by decide), ZMod.natCast_self, zero_sub, Nat.cast_one]
  simp only [lowOrder, List.mem_cons, List.not_mem_nil, or_false, LowOrder]
  rw [hcast 0 (by decide), hcast 1 (by decide), hcast (p - 1) (by decide), hcast order8 (by decide),
    hcast order8' (by decide), hneg, Nat.cast_zero, Nat.cast_one]

end ND.Proof.X25519
