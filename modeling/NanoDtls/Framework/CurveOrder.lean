import NanoDtls.Framework.Jacobian
import Mathlib.Algebra.Field.ZMod
import Mathlib.FieldTheory.Finite.Basic
import Mathlib.GroupTheory.OrderOfElement
import Mathlib.GroupTheory.Perm.Cycle.Type
import Mathlib.GroupTheory.SpecificGroups.Cyclic

/-!
# Curves of prime order

A short Weierstrass curve over a field with `q` elements has at most
`2 q + 1` points, two for each x-coordinate and the one at infinity
(`card_points_le`). So a point of prime order `n` with `2 q + 1 < 3 n` leaves
`n` points or `2 n`, and the second only if there is a point of order 2, which
is a root of `x³ + a x + b` (`card_points_eq`).

That a cubic has no root in `ZMod q` is checked by evaluation (`CubicResidue.check`):
a root is its own `q`-th power, and modulo the cubic `X ^ q - X` has an inverse.
-/

namespace ND

open WeierstrassCurve.Affine

/-! ## Counting points -/

section Count

variable {F : Type*} [Field F] {a b : F}

/-- A square root, if there is one. -/
noncomputable def someRoot (c : F) : F :=
  open Classical in if h : ∃ y, y ^ 2 = c then h.choose else 0

theorem eq_or_eq_neg_someRoot {y c : F} (h : y ^ 2 = c) : y = someRoot c ∨ y = -someRoot c := by
  have hex : ∃ y, y ^ 2 = c := ⟨y, h⟩
  rw [← sq_eq_sq_iff_eq_or_eq_neg, h, someRoot, dif_pos hex]
  exact hex.choose_spec.symm

/-- The x-coordinate, and which of the two points it is. -/
noncomputable def pointCode : (shortWeierstrass a b).Point → Option (F × Bool)
  | .zero => none
  | .some x y _ => some (x, open Classical in decide (y = someRoot (x ^ 3 + a * x + b)))

theorem pointCode_injective : Function.Injective (pointCode : (shortWeierstrass a b).Point → Option (F × Bool)) := by
  intro P Q h
  cases P with
  | zero =>
    cases Q with
    | zero => rfl
    | some x y hQ => cases h
  | some x y hP =>
    cases Q with
    | zero => cases h
    | some x' y' hQ =>
      obtain ⟨rfl, hroot⟩ := Prod.mk.inj (Option.some.inj h)
      rw [decide_eq_decide] at hroot
      rw [Point.some.injEq]
      refine ⟨rfl, ?_⟩
      rcases eq_or_eq_neg_someRoot (shortWeierstrass_equation.mp hP.1) with hy | hy
      · rw [hy, hroot.mp hy]
      · rcases eq_or_eq_neg_someRoot (shortWeierstrass_equation.mp hQ.1) with hy' | hy'
        · rw [hroot.mpr hy', hy']
        · rw [hy, hy']

variable [DecidableEq F]

theorem exists_root_of_order_two (h2 : (2 : F) ≠ 0) {P : (shortWeierstrass a b).Point} (h : addOrderOf P = 2) :
    ∃ x, x ^ 3 + a * x + b = 0 := by
  have hdouble : P + P = 0 := by rw [← two_nsmul, ← h, addOrderOf_nsmul_eq_zero]
  cases P with
  | zero =>
    have h0 : addOrderOf (0 : (shortWeierstrass a b).Point) = 2 := h
    rw [addOrderOf_zero] at h0
    cases h0
  | some x y hP =>
    rw [add_eq_zero_iff_eq_neg, Point.neg_some, Point.some.injEq, shortWeierstrass_negY] at hdouble
    have hy : y = 0 := (mul_eq_zero.mp (by linear_combination hdouble.2 : 2 * y = 0)).resolve_left h2
    have hcurve := shortWeierstrass_equation.mp hP.1
    exact ⟨x, by rw [← hcurve, hy]; ring⟩

variable [Fintype F]

omit [DecidableEq F] in
theorem finite_points : Finite (shortWeierstrass a b).Point := Finite.of_injective _ pointCode_injective

omit [DecidableEq F] in
theorem card_points_le : Nat.card (shortWeierstrass a b).Point ≤ 2 * Fintype.card F + 1 := by
  refine (Nat.card_le_card_of_injective _ pointCode_injective).trans_eq ?_
  rw [Nat.card_eq_fintype_card, Fintype.card_option, Fintype.card_prod, Fintype.card_bool, Nat.mul_comm]

theorem card_points_eq (h2 : (2 : F) ≠ 0) (hroot : ∀ x : F, x ^ 3 + a * x + b ≠ 0) {n : Nat} (hn : n.Prime)
    (hroom : 2 * Fintype.card F + 1 < 3 * n) {P : (shortWeierstrass a b).Point} (hP : P ≠ 0) (hnP : n • P = 0) :
    Nat.card (shortWeierstrass a b).Point = n := by
  have : Fact n.Prime := ⟨hn⟩
  have horder : addOrderOf P = n := addOrderOf_eq_prime hnP hP
  obtain ⟨k, hk⟩ := horder ▸ addOrderOf_dvd_natCard P
  have := finite_points (F := F) (a := a) (b := b)
  have hpos : 0 < Nat.card (shortWeierstrass a b).Point := Nat.card_pos
  have hlt : n * k < n * 3 := by
    rw [← hk, Nat.mul_comm n]
    exact card_points_le.trans_lt hroom
  have hk3 := Nat.lt_of_mul_lt_mul_left hlt
  have hk0 : k ≠ 0 := by
    rintro rfl
    rw [Nat.mul_zero] at hk
    exact hpos.ne' hk
  have hk2 : k ≠ 2 := by
    rintro rfl
    have : Fact (Nat.Prime 2) := ⟨Nat.prime_two⟩
    obtain ⟨Q, hQ⟩ := exists_prime_addOrderOf_dvd_card' 2 (hk ▸ Dvd.intro_left n rfl)
    obtain ⟨x, hx⟩ := exists_root_of_order_two h2 hQ
    exact hroot x hx
  rw [hk, show k = 1 by omega, Nat.mul_one]

end Count

/-! ## Cubics without a root -/

/-- The polynomial `c₀ + c₁ X + c₂ X²`. -/
structure CubicResidue where
  c₀ : Nat
  c₁ : Nat
  c₂ : Nat
deriving DecidableEq

namespace CubicResidue

/-- The product modulo `X³ - u X - v` and modulo `q`. -/
def mul (q u v : Nat) (f g : CubicResidue) : CubicResidue :=
  let d₃ := f.c₁ * g.c₂ + f.c₂ * g.c₁
  let d₄ := f.c₂ * g.c₂
  ⟨(f.c₀ * g.c₀ + v * d₃) % q, (f.c₀ * g.c₁ + f.c₁ * g.c₀ + u * d₃ + v * d₄) % q,
    (f.c₀ * g.c₂ + f.c₁ * g.c₁ + f.c₂ * g.c₀ + u * d₄) % q⟩

/-- The power `e`, of at most `fuel` bits. -/
def pow (q u v : Nat) : Nat → CubicResidue → Nat → CubicResidue
  | 0, _, _ => ⟨1, 0, 0⟩
  | fuel + 1, f, e =>
    if e = 0 then ⟨1, 0, 0⟩
    else
      let h := pow q u v fuel (mul q u v f f) (e / 2)
      if e % 2 = 1 then mul q u v f h else h

/-- `inverse` is the inverse of `X ^ q - X`. -/
def check (q u v fuel : Nat) (inverse : CubicResidue) : Bool :=
  let f := pow q u v fuel ⟨0, 1, 0⟩ q
  mul q u v { f with c₁ := f.c₁ + (q - 1) } inverse == ⟨1, 0, 0⟩

variable {q u v : Nat}

/-- The value at an element. -/
def eval (f : CubicResidue) (x : ZMod q) : ZMod q := f.c₀ + f.c₁ * x + f.c₂ * x ^ 2

theorem eval_mul {x : ZMod q} (hx : x ^ 3 = u * x + v) (f g : CubicResidue) : (mul q u v f g).eval x = f.eval x * g.eval x := by
  simp only [eval, mul, ZMod.natCast_mod, Nat.cast_add, Nat.cast_mul]
  linear_combination (-(f.c₁ * g.c₂ + f.c₂ * g.c₁ : ZMod q) - f.c₂ * g.c₂ * x) * hx

theorem eval_pow {x : ZMod q} (hx : x ^ 3 = u * x + v) : ∀ (fuel : Nat) (f : CubicResidue) (e : Nat), e < 2 ^ fuel →
    (pow q u v fuel f e).eval x = f.eval x ^ e
  | 0, f, e, he => by
    rw [Nat.lt_one_iff.mp he, pow, pow_zero]
    simp [eval]
  | fuel + 1, f, e, he => by
    rw [pow]
    by_cases h0 : e = 0
    · rw [if_pos h0, h0, pow_zero]
      simp [eval]
    · have ih := eval_pow hx fuel (mul q u v f f) (e / 2) (by rw [Nat.pow_succ] at he; omega)
      rw [eval_mul hx, ← pow_two, ← pow_mul] at ih
      rw [if_neg h0]
      dsimp only
      split
      · rw [eval_mul hx, ih, ← pow_succ', show 2 * (e / 2) + 1 = e by omega]
      · rw [ih, show 2 * (e / 2) = e by omega]

theorem no_root [Fact q.Prime] {fuel : Nat} (hq : q < 2 ^ fuel) {inverse : CubicResidue} (h : check q u v fuel inverse = true)
    (x : ZMod q) : x ^ 3 ≠ u * x + v := by
  intro hx
  rw [check, beq_iff_eq] at h
  have hpow := eval_pow hx fuel ⟨0, 1, 0⟩ q hq
  have hself : eval ⟨0, 1, 0⟩ x = x := by simp [eval]
  rw [hself, ZMod.pow_card] at hpow
  generalize pow q u v fuel ⟨0, 1, 0⟩ q = f at h hpow
  have hone : (1 : ZMod q) = eval ⟨1, 0, 0⟩ x := by simp [eval]
  have hle : 1 ≤ q := (Fact.out : q.Prime).one_lt.le
  have hzero : eval { f with c₁ := f.c₁ + (q - 1) } x = 0 := by
    rw [eval] at hpow ⊢
    rw [Nat.cast_add, Nat.cast_sub hle, ZMod.natCast_self, Nat.cast_one]
    linear_combination hpow
  rw [← h, eval_mul hx, hzero, zero_mul] at hone
  exact one_ne_zero hone

end CubicResidue

end ND
