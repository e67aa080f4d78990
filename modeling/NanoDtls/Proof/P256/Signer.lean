import NanoDtls.Spec.Ecdsa

/-!
# A signer

With the private key `-1` the public key is `-G`, and a signature of the
digest `e` needs no multiplication on the curve: if `r = e + m s` modulo `n`
and `r` is the x-coordinate of `m • G`, then `[e/s] G + [r/s] (-G) = -[m] G`
(`verifies_of_diff`). With `m = 1` this signs every digest but one, with
`m = 2` that one (`sign_verifies`).
-/

namespace ND.Proof.P256.Signer

open ND.Spec.Ecdsa
open WeierstrassCurve.Affine (Point)

/-- The y-coordinate of the public key. -/
def keyY : Nat := p - gy

theorem cast_keyY : (keyY : ZMod p) = -(gy : ZMod p) := by
  rw [keyY, Nat.cast_sub (by decide), ZMod.natCast_self, zero_sub]

theorem key_on_curve : (keyY : ZMod p) ^ 2 = (gx : ZMod p) ^ 3 - 3 * gx + b := by
  rw [cast_keyY, neg_sq, g_on_curve]

/-- The public key is `-G`. -/
theorem key_eq : Point.some (gx : ZMod p) keyY (nonsingular key_on_curve) = -G := by
  rw [G, Point.neg_some, Point.some.injEq]
  refine ⟨rfl, ?_⟩
  rw [cast_keyY]
  exact (shortWeierstrass_negY _ _).symm

theorem natCast_ne_zero_n {k : Nat} (h0 : 0 < k) (h : k < n) : (k : ZMod n) ≠ 0 := fun hk =>
  Nat.not_le.mpr h (Nat.le_of_dvd h0 ((ZMod.natCast_eq_zero_iff k n).mp hk))

theorem verifies_of_diff {e r s m : Nat} (hr : 1 ≤ r ∧ r < n) (hs : 1 ≤ s ∧ s < n) (hd : (r : ZMod n) = e + m * s)
    (hlt : (e * (s : ZMod n)⁻¹).val + m < n) {x y : ZMod p} {h : curve.Nonsingular x y}
    (hm : m • G = Point.some x y h) (hx : x.val % n = r) : Verifies gx keyY e r s := by
  have hs0 : (s : ZMod n) ≠ 0 := natCast_ne_zero_n hs.1 hs.2
  have hquot : (r : ZMod n) * (s : ZMod n)⁻¹ = e * (s : ZMod n)⁻¹ + m := by
    rw [hd, add_mul, mul_assoc, mul_inv_cancel₀ hs0, mul_one]
  have hmv : ((m : Nat) : ZMod n).val = m := ZMod.val_natCast_of_lt (by omega)
  have hval : ((r : ZMod n) * (s : ZMod n)⁻¹).val = (e * (s : ZMod n)⁻¹).val + m := by
    rw [hquot, ZMod.val_add_of_lt (by rwa [hmv]), hmv]
  refine ⟨by decide, by decide, hr, hs, key_on_curve, x, curve.negY x y,
    (WeierstrassCurve.Affine.nonsingular_neg x y).mpr h, ?_, hx⟩
  calc (e * (s : ZMod n)⁻¹).val • G + (r * (s : ZMod n)⁻¹).val • Point.some (gx : ZMod p) keyY (nonsingular key_on_curve)
      = -(m • G) := by
        rw [key_eq, hval, add_nsmul, neg_nsmul, neg_nsmul, ← add_assoc, add_neg_cancel, zero_add]
    _ = -Point.some x y h := by rw [hm]
    _ = Point.some x (curve.negY x y) _ := Point.neg_some h

/-- The x-coordinate of `2 • G`. -/
def x2 : Nat := 0x7cf27b188d034f7e8a52380304b51ac3c08969e277f21b35a60b48fc47669978

theorem double_G : ∃ x y h, 2 • G = Point.some x y h ∧ x = (x2 : ZMod p) := by
  have hgy : (gy : ZMod p) ≠ 0 := natCast_ne_zero (by decide)
  have hG : JRep G (gx : ZMod p) gy 1 := JRep.affine (nonsingular g_on_curve)
  obtain ⟨x, y, h, hsum, hZ, hx, _⟩ := (hG.double two_ne_zero_p hgy rfl rfl).exists_affine
  refine ⟨x, y, h, (two_nsmul G).trans hsum, ?_⟩
  have hnat : ((9 * gx ^ 4 + 9 : Nat) : ZMod p) = (x2 * (2 * gy) ^ 2 + 8 * (gx * gy ^ 2) + 18 * gx ^ 2 : Nat) :=
    (ZMod.natCast_eq_natCast_iff _ _ p).mpr (by decide)
  push_cast at hnat
  refine mul_right_cancel₀ (pow_ne_zero 2 hZ) (hx.symm.trans ?_)
  linear_combination hnat

/-- The `s` of the signature of the digest `gx`, for which `r` is not `gx`. -/
def s2 : Nat := 0x8ed5492d5eb869b48caa88ed0886ce8a4c2f630a50373ca58b507db3766eb71

/-- The signature of a digest. -/
def sign (e : Nat) : Nat × Nat := if e % n = gx then (x2, s2) else (gx, (gx + (n - e % n)) % n)

theorem verifies_double {e : Nat} (he : (e : ZMod n) = gx) : Verifies gx keyY e x2 s2 := by
  obtain ⟨x, y, h, hG, hx⟩ := double_G
  have hs : (s2 : ZMod n) ≠ 0 := natCast_ne_zero_n (by decide) (by decide)
  have hd : (x2 : ZMod n) = (gx + 2 * s2 : Nat) := (ZMod.natCast_eq_natCast_iff _ _ n).mpr (by decide)
  -- the quotient of the digest
  have hquot : (gx : ZMod n) * (s2 : ZMod n)⁻¹ =
      (0x99c1d20a1d6e2c2f62a51ab6a674599692514cdd5cb7e1b6252420d89a385ee8 : Nat) := by
    rw [← div_eq_mul_inv, div_eq_iff hs, ← Nat.cast_mul]
    exact (ZMod.natCast_eq_natCast_iff _ _ n).mpr (by decide)
  refine verifies_of_diff (m := 2) (by decide) (by decide) ?_ ?_ hG ?_
  · rw [he, hd, Nat.cast_add, Nat.cast_mul]
  · rw [he, hquot, ZMod.val_natCast_of_lt (by decide)]
    decide
  · rw [hx, ZMod.val_natCast_of_lt (by decide)]
    decide

theorem verifies_single {e : Nat} (he : (e : ZMod n) ≠ gx) : Verifies gx keyY e gx ((gx + (n - e % n)) % n) := by
  have hlt : e % n < n := Nat.mod_lt _ (by decide)
  have hs : (((gx + (n - e % n)) % n : Nat) : ZMod n) = gx - e := by
    rw [ZMod.natCast_mod, Nat.cast_add, Nat.cast_sub hlt.le, ZMod.natCast_self, ZMod.natCast_mod, zero_sub, sub_eq_add_neg]
  have hs0 : (gx : ZMod n) - e ≠ 0 := sub_ne_zero.mpr (Ne.symm he)
  have hpos : 1 ≤ (gx + (n - e % n)) % n := by
    refine Nat.one_le_iff_ne_zero.mpr fun h0 => hs0 ?_
    rw [← hs, h0, Nat.cast_zero]
  refine verifies_of_diff (m := 1) (by decide) ⟨hpos, Nat.mod_lt _ (by decide)⟩ ?_ ?_ (one_nsmul G) ?_
  · rw [hs, Nat.cast_one, one_mul, add_sub_cancel]
  · -- otherwise the quotient of `r` would be zero
    rw [hs]
    have hv := ZMod.val_lt ((e : ZMod n) * ((gx : ZMod n) - e)⁻¹)
    refine Nat.lt_of_le_of_ne hv fun hmax => natCast_ne_zero_n (k := gx) (by decide) (by decide) ?_
    have hzero : (e : ZMod n) * ((gx : ZMod n) - e)⁻¹ + 1 = 0 := by
      rw [← ZMod.natCast_zmod_val ((e : ZMod n) * ((gx : ZMod n) - e)⁻¹), ← Nat.cast_one, ← Nat.cast_add, hmax,
        ZMod.natCast_self]
    have hprod : (gx : ZMod n) * ((gx : ZMod n) - e)⁻¹ = 0 := by
      rw [← hzero, ← mul_inv_cancel₀ hs0]
      ring
    exact (mul_eq_zero.mp hprod).resolve_right (inv_ne_zero hs0)
  · rw [ZMod.val_natCast_of_lt (by decide)]
    decide

theorem sign_verifies (e : Nat) : Verifies gx keyY e (sign e).1 (sign e).2 := by
  have hcast : (e : ZMod n) = gx ↔ e % n = gx := by
    rw [ZMod.natCast_eq_natCast_iff', Nat.mod_eq_of_lt (show gx < n by decide)]
  rw [sign]
  split
  · exact verifies_double (hcast.mpr (by assumption))
  · exact verifies_single (fun h => absurd (hcast.mp h) (by assumption))

end ND.Proof.P256.Signer
