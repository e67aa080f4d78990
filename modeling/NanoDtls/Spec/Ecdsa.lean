import NanoDtls.Framework.Jacobian
import NanoDtls.Framework.Primality
import Mathlib.Algebra.Field.ZMod

/-!
# ECDSA over P-256

Verification as the standard states it, in the group of the curve
`y² = x³ - 3x + b` over `GF(p)`: with `w = s⁻¹ mod n` the point
`[e w] G + [r w] Q` is not at infinity and its x-coordinate is `r` modulo `n`.
The order of the base point plays no part.
-/

namespace ND.Spec.Ecdsa

open WeierstrassCurve.Affine (Point Equation Nonsingular)

/-- The field prime. -/
def p : Nat := 2 ^ 256 - 2 ^ 224 + 2 ^ 192 + 2 ^ 96 - 1

/-- The order of the base point. -/
def n : Nat := 0xffffffff00000000ffffffffffffffffbce6faada7179e84f3b9cac2fc632551

def pCertificates : List Certificate :=
  [⟨65537, 3, [2, 2, 2, 2, 2, 2, 2, 2, 2, 2, 2, 2, 2, 2, 2, 2]⟩,
   ⟨17449, 14, [2, 2, 2, 3, 727]⟩,
   ⟨6700417, 5, [2, 2, 2, 2, 2, 2, 2, 3, 17449]⟩,
   ⟨2411, 6, [2, 5, 241]⟩,
   ⟨3677, 2, [2, 2, 919]⟩,
   ⟨66417393611, 6, [2, 5, 53, 173, 197, 3677]⟩,
   ⟨11290956913871, 13, [2, 5, 17, 66417393611]⟩,
   ⟨1087, 3, [2, 3, 181]⟩,
   ⟨4349, 2, [2, 2, 1087]⟩,
   ⟨78283, 3, [2, 3, 3, 4349]⟩,
   ⟨18169, 11, [2, 2, 2, 3, 757]⟩,
   ⟨704251, 2, [2, 3, 3, 5, 5, 5, 313]⟩,
   ⟨46076956964474543, 5, [2, 23, 18169, 78283, 704251]⟩,
   ⟨3769, 7, [2, 2, 2, 3, 157]⟩,
   ⟨204061199, 11, [2, 11, 23, 107, 3769]⟩,
   ⟨34282281433, 17, [2, 2, 2, 3, 7, 204061199]⟩,
   ⟨774023187263532362759620327192479577272145303, 3, [2, 3, 3, 2411, 34282281433, 11290956913871, 46076956964474543]⟩,
   ⟨835945042244614951780389953367877943453916927241, 11, [2, 2, 2, 3, 3, 3, 5, 774023187263532362759620327192479577272145303]⟩,
   ⟨1531, 2, [2, 3, 3, 5, 17]⟩,
   ⟨490463, 14, [2, 7, 53, 661]⟩,
   ⟨115792089210356248762697446949407573530086143415290314195533631308867097853951, 6, [2, 3, 5, 5, 17, 257, 641, 1531, 65537, 490463, 6700417, 835945042244614951780389953367877943453916927241]⟩]

def nCertificates : List Certificate :=
  [⟨17449, 14, [2, 2, 2, 3, 727]⟩,
   ⟨9547, 2, [2, 3, 37, 43]⟩,
   ⟨38189, 2, [2, 2, 9547]⟩,
   ⟨3407, 5, [2, 13, 131]⟩,
   ⟨126241, 7, [2, 2, 2, 2, 2, 3, 5, 263]⟩,
   ⟨104471, 11, [2, 5, 31, 337]⟩,
   ⟨3969899, 2, [2, 19, 104471]⟩,
   ⟨1002328039319, 19, [2, 126241, 3969899]⟩,
   ⟨16879, 3, [2, 3, 29, 97]⟩,
   ⟨1297, 10, [2, 2, 2, 2, 3, 3, 3, 3]⟩,
   ⟨155317, 5, [2, 2, 3, 7, 43, 43]⟩,
   ⟨191039911, 3, [2, 3, 5, 41, 155317]⟩,
   ⟨1511, 11, [2, 5, 151]⟩,
   ⟨3023, 5, [2, 1511]⟩,
   ⟨208150935158385979, 2, [2, 3, 11, 43, 127, 3023, 191039911]⟩,
   ⟨2624747550333869278416773953, 7, [2, 2, 2, 2, 2, 2, 3, 3, 1297, 16879, 208150935158385979]⟩,
   ⟨311245691, 2, [2, 5, 7, 17, 29, 29, 311]⟩,
   ⟨622491383, 5, [2, 311245691]⟩,
   ⟨1201, 11, [2, 2, 2, 2, 3, 5, 5]⟩,
   ⟨9350987, 2, [2, 17, 229, 1201]⟩,
   ⟨187019741, 2, [2, 2, 5, 9350987]⟩,
   ⟨115792089210356248762697446949407573529996955224135760342422259061068512044369, 7, [2, 2, 2, 2, 3, 71, 131, 373, 3407, 17449, 38189, 187019741, 622491383, 1002328039319, 2624747550333869278416773953]⟩]

theorem prime_p : p.Prime := certified_prime pCertificates (by decide +kernel) (by decide +kernel)

theorem prime_n : n.Prime := certified_prime nCertificates (by decide +kernel) (by decide +kernel)

instance : Fact p.Prime := ⟨prime_p⟩

instance : Fact n.Prime := ⟨prime_n⟩

/-- The coefficient `b`. -/
def b : Nat := 0x5ac635d8aa3a93e7b3ebbd55769886bc651d06b0cc53b0f63bce3c3e27d2604b

/-- The curve `y² = x³ - 3x + b`. -/
def curve : WeierstrassCurve.Affine (ZMod p) := shortWeierstrass (-3) (b : ZMod p)

/-- `(qx, qy)` are the coordinates of an affine point of the curve. -/
def OnCurve (qx qy : Nat) : Prop :=
  qx < p ∧ qy < p ∧ (qy : ZMod p) ^ 2 = (qx : ZMod p) ^ 3 - 3 * qx + b

instance (qx qy : Nat) : Decidable (OnCurve qx qy) := inferInstanceAs (Decidable (_ ∧ _ ∧ _))

theorem natCast_ne_zero {k : Nat} (h : k % p ≠ 0) : (k : ZMod p) ≠ 0 := fun hk =>
  h (Nat.dvd_iff_mod_eq_zero.mp ((ZMod.natCast_eq_zero_iff k p).mp hk))

theorem two_ne_zero_p : (2 : ZMod p) ≠ 0 := natCast_ne_zero (k := 2) (by decide)

/-- The curve is smooth. -/
theorem Δ_ne_zero : curve.Δ ≠ 0 := by
  rw [curve, shortWeierstrass_Δ]
  intro h
  have h' : ((16 * 27 * b ^ 2 : Nat) : ZMod p) = (16 * 108 : Nat) := by
    push_cast
    linear_combination -h
  exact absurd ((ZMod.natCast_eq_natCast_iff _ _ p).mp h') (by decide)

theorem nonsingular {x y : ZMod p} (h : y ^ 2 = x ^ 3 - 3 * x + b) : curve.Nonsingular x y :=
  (WeierstrassCurve.Affine.equation_iff_nonsingular_of_Δ_ne_zero Δ_ne_zero).mp
    (shortWeierstrass_equation.mpr (by rw [h]; ring))

def gx : Nat := 0x6b17d1f2e12c4247f8bce6e563a440f277037d812deb33a0f4a13945d898c296

def gy : Nat := 0x4fe342e2fe1a7f9b8ee7eb4a7c0f9e162bce33576b315ececbb6406837bf51f5

theorem g_on_curve : (gy : ZMod p) ^ 2 = (gx : ZMod p) ^ 3 - 3 * gx + b := by
  have h : ((gy ^ 2 + 3 * gx : Nat) : ZMod p) = (gx ^ 3 + b : Nat) :=
    (ZMod.natCast_eq_natCast_iff _ _ p).mpr (by decide)
  push_cast at h
  linear_combination h

/-- The base point. -/
def G : curve.Point := .some (gx : ZMod p) gy (nonsingular g_on_curve)

/-- `(r, s)` is a signature of the digest `e` under the public key `(qx, qy)`. -/
def Verifies (qx qy e r s : Nat) : Prop :=
  qx < p ∧ qy < p ∧ (1 ≤ r ∧ r < n) ∧ (1 ≤ s ∧ s < n) ∧
    ∃ hQ : (qy : ZMod p) ^ 2 = (qx : ZMod p) ^ 3 - 3 * qx + b,
    ∃ x y hR, (e * (s : ZMod n)⁻¹).val • G + (r * (s : ZMod n)⁻¹).val • Point.some (qx : ZMod p) qy (nonsingular hQ) =
      Point.some x y hR ∧ x.val % n = r

end ND.Spec.Ecdsa
