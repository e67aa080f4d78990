import NanoDtls.Framework.Multiples
import NanoDtls.Impl.Sign
import NanoDtls.Proof.P256.Ecdsa
import NanoDtls.Proof.P256.Signer
import NanoDtls.Proof.Signature
import Mathlib.GroupTheory.OrderOfElement

/-!
# Signatures are verified

The base point has order `n` (`order_G`): the kernel finds `(n - 1) • G = -G`.
So the scalars of ECDSA are residues modulo `n`, and a signature that was made
with the nonce `k` is one of the specification (`verifies_of_nonce`). What
`nd_demo_p256_ecdsa_sign` returns is such a signature, whatever the random
bytes are (`sign_ensures`), so `nd_p256_ecdsa_verify` accepts it
(`signed_verifies`).
-/

namespace ND.Proof.P256

open ND.Impl ND.Impl.P256 ND.Impl.Sign
open ND.Spec.Ecdsa (p n gx gy curve G Verifies nonsingular)
open WeierstrassCurve.Affine (Point)
open Asn1 (bytesOne)

/-! ## The order of the base point -/

theorem jRep_of_multiple {fuel k : Nat} {c : Multiples.Coords} (h : Multiples.multiple p (p - 3) ⟨gx, gy, 1⟩ fuel k = some c) :
    JRep (k • G) (c.x : ZMod p) c.y c.z := by
  have ha : ((p - 3 : Nat) : ZMod p) = -3 := by
    rw [Nat.cast_sub (by decide), ZMod.natCast_self, zero_sub, Nat.cast_ofNat]
  have hG : JRep G (gx : ZMod p) gy (1 : Nat) := by
    rw [Nat.cast_one]
    exact JRep.affine (nonsingular Spec.Ecdsa.g_on_curve)
  exact Multiples.multiple_rep (P := G) (c := ⟨gx, gy, 1⟩) Spec.Ecdsa.two_ne_zero_p ha hG fuel k c h

theorem jRep_neg_G : JRep (-G) (gx : ZMod p) (-gy) 1 := by
  rw [G, Point.neg_some]
  refine ⟨one_ne_zero, by ring, ?_⟩
  rw [show curve.negY _ _ = _ from shortWeierstrass_negY _ _]
  ring

/-- The coordinates are those of `-G`. -/
def isNegG (c : Multiples.Coords) : Bool := gx * c.z ^ 2 % p == c.x % p && (gy * c.z ^ 3 + c.y) % p == 0

theorem nsmul_eq_neg_G {fuel k : Nat} (h : (Multiples.multiple p (p - 3) ⟨gx, gy, 1⟩ fuel k).any isNegG = true) :
    k • G = -G := by
  cases hc : Multiples.multiple p (p - 3) ⟨gx, gy, 1⟩ fuel k with
  | none =>
    rw [hc] at h
    cases h
  | some c =>
    rw [hc, Option.any_some, isNegG, Bool.and_eq_true, beq_iff_eq, beq_iff_eq] at h
    have hx : ((gx * c.z ^ 2 : Nat) : ZMod p) = (c.x : Nat) := (ZMod.natCast_eq_natCast_iff' _ _ _).mpr h.1
    have hy : ((gy * c.z ^ 3 + c.y : Nat) : ZMod p) = 0 := (ZMod.natCast_eq_zero_iff _ _).mpr (Nat.dvd_of_mod_eq_zero h.2)
    push_cast at hx hy
    apply (jRep_of_multiple hc).eq_of_scaled jRep_neg_G
    · linear_combination hx
    · linear_combination -hy

theorem pred_nsmul_G : (n - 1) • G = -G := by
  apply @nsmul_eq_neg_G 256
  decide +kernel

theorem order_G : n • G = 0 := by
  rw [show n = n - 1 + 1 from rfl, succ_nsmul, pred_nsmul_G, neg_add_cancel]

theorem nsmul_G_ne_zero {k : Nat} (h0 : 0 < k) (h : k < n) : k • G ≠ 0 := by
  intro hk
  have horder : addOrderOf G = n := addOrderOf_eq_prime order_G (Point.some_ne_zero _)
  have hdvd := addOrderOf_dvd_of_nsmul_eq_zero hk
  rw [horder] at hdvd
  exact absurd (Nat.le_of_dvd h0 hdvd) (Nat.not_le.mpr h)

/-! ## Signatures of the specification -/

/-- `(qx, qy)` is the public key of `d`. -/
def IsPublicKey (d qx qy : Nat) : Prop := qx < p ∧ qy < p ∧ ∃ h, d • G = Point.some (qx : ZMod p) qy h

/-- A signature with the nonce `k`. -/
theorem verifies_of_nonce {d e k r s qx qy : Nat} (hQ : IsPublicKey d qx qy) (hk : (k : ZMod n) ≠ 0) {x y : ZMod p}
    {h : curve.Nonsingular x y} (hR : k • G = Point.some x y h) (hx : x.val % n = r) (hr : 1 ≤ r ∧ r < n)
    (hs : 1 ≤ s ∧ s < n) (hsk : (s : ZMod n) = (k : ZMod n)⁻¹ * (e + r * d)) : Verifies qx qy e r s := by
  obtain ⟨hqx, hqy, hon, hd⟩ := hQ
  have hs0 : (s : ZMod n) ≠ 0 := fun h0 =>
    Nat.not_le.mpr hs.2 (Nat.le_of_dvd hs.1 ((ZMod.natCast_eq_zero_iff s n).mp h0))
  have hcurve : (qy : ZMod p) ^ 2 = (qx : ZMod p) ^ 3 - 3 * qx + Spec.Ecdsa.b := by
    have heq := shortWeierstrass_equation.mp hon.1
    linear_combination heq
  refine ⟨hqx, hqy, hr, hs, hcurve, x, y, h, ?_, hx⟩
  -- the two scalars add up to the nonce
  have hscalar : (((e * (s : ZMod n)⁻¹).val + (r * (s : ZMod n)⁻¹).val * d : Nat) : ZMod n) = (k : Nat) := by
    rw [Nat.cast_add, Nat.cast_mul, ZMod.natCast_zmod_val, ZMod.natCast_zmod_val]
    have hprod : (k : ZMod n) * s = e + r * d := by rw [hsk, ← mul_assoc, mul_inv_cancel₀ hk, one_mul]
    field_simp
    linear_combination -hprod
  rw [← hd, ← mul_nsmul', ← add_nsmul, ← hR, nsmul_eq_mod_nsmul _ order_G, nsmul_eq_mod_nsmul k order_G]
  congr 1
  exact (ZMod.natCast_eq_natCast_iff' _ _ _).mp hscalar

/-! ## Signing -/

theorem nonce_check (k : Bn256) :
    (bnIsZero k = true ∨ 0 ≤ bnCmp k P256_N) ↔ ¬ (1 ≤ bnVal k.1 ∧ bnVal k.1 < n) := by
  rw [bnIsZero_iff, bnCmp_nonneg, val_P256_N]
  omega

/-- An attempt with a nonce in range. -/
theorem signAttempt_eq {d e k : Bn256} {D E : ZMod n} (hd : Residue n d D) (he : Residue n e E)
    (hk : 1 ≤ bnVal k.1 ∧ bnVal k.1 < n) : ∃ x y h r s, bnVal k.1 • G = Point.some x y h ∧ bnVal r.1 = x.val % n ∧
      Residue n s ((bnVal k.1 : ZMod n)⁻¹ * (E + (bnVal r.1 : ZMod n) * D)) ∧
      signAttempt d e k = .ok (if bnIsZero r = true ∨ bnIsZero s = true then none else some (r, s)) := by
  obtain ⟨R, hR, hrep⟩ := pointScalarMult_ok k
    (rep_fromAffine fp_P256_GX fp_P256_GY (nonsingular Spec.Ecdsa.g_on_curve))
  rw [show Point.some _ _ _ = G from rfl] at hrep
  cases R with
  | infinity => exact absurd hrep (nsmul_G_ne_zero hk.1 hk.2)
  | jacobian X Y Z =>
    obtain ⟨_, _, _, -, -, -, hJ⟩ := id hrep
    obtain ⟨x, y, h, hsome, -⟩ := hJ.exists_affine
    rw [hsome] at hrep
    obtain ⟨o, ho, rx, -⟩ := pointToAffine_ok hrep
    obtain ⟨r, hr, hval⟩ := modReduceOnce_ok o.1 (m := P256_N) (by decide)
    rw [val_P256_N, ← rx.val] at hval
    have rr : Residue n r (bnVal r.1 : ZMod n) := ⟨by rw [hval]; exact Nat.mod_lt _ (by decide), rfl⟩
    have rk : Residue n k (bnVal k.1 : ZMod n) := ⟨hk.2, rfl⟩
    obtain ⟨kInv, hkInv, rkInv⟩ := Residue.inv val_P256_N (by decide) rk
    obtain ⟨rd, hrd, rrd⟩ := rr.mul val_P256_N hd
    obtain ⟨s, hs, rs⟩ := rkInv.mul val_P256_N (he.add val_P256_N rrd)
    refine ⟨x, y, h, r, s, hsome, hval, rs, ?_⟩
    rw [signAttempt, if_neg (not_congr (nonce_check k) |>.mpr (not_not.mpr hk)), hR, ok_bind]
    simp only [ho, hr, hkInv, hrd, hs, ok_bind]
    by_cases hr0 : bnIsZero r = true <;> by_cases hs0 : bnIsZero s = true <;> simp [hr0, hs0]

/-- The loop ends with a signature of the specification or with an error. -/
theorem signLoop_ensures {d e : Bn256} {E D qx qy : Nat} (hd : Residue n d (D : ZMod n)) (he : Residue n e (E : ZMod n))
    (hQ : IsPublicKey D qx qy) (draws : Nat → Option (BytesN 32)) : ∀ left attempt : Nat,
    Ensures Status.ub (signLoop draws d e left attempt) fun o => Verifies qx qy E (beNat o.1.1) (beNat o.2.1)
  | 0, _ => ensures_error (by decide)
  | left + 1, attempt => by
    rw [signLoop]
    cases draws attempt with
    | none => exact ensures_error (by decide)
    | some kBytes =>
      simp only
      by_cases hk : 1 ≤ bnVal (bnFromBytesBe kBytes).1 ∧ bnVal (bnFromBytesBe kBytes).1 < n
      · obtain ⟨x, y, h, r, s, hR, hr, rs, hattempt⟩ := signAttempt_eq hd he hk
        rw [hattempt, ok_bind]
        by_cases hzero : bnIsZero r = true ∨ bnIsZero s = true
        · rw [if_pos hzero]
          exact signLoop_ensures hd he hQ draws left (attempt + 1)
        · rw [if_neg hzero]
          rw [not_or, bnIsZero_iff, bnIsZero_iff] at hzero
          apply ensures_ok
          rw [bnToBytesBe_val, bnToBytesBe_val]
          have hk0 : (bnVal (bnFromBytesBe kBytes).1 : ZMod n) ≠ 0 := Signer.natCast_ne_zero_n hk.1 hk.2
          exact verifies_of_nonce hQ hk0 hR hr.symm ⟨by omega, by rw [hr]; exact Nat.mod_lt _ (by decide)⟩
            ⟨by omega, rs.1⟩ rs.2
      · rw [signAttempt, if_pos ((nonce_check _).mpr hk), pure_eq_ok, ok_bind]
        exact signLoop_ensures hd he hQ draws left (attempt + 1)

theorem sign_ensures (draws : Nat → Option (BytesN 32)) (privkeyD hash : BytesN 32) {qx qy : Nat}
    (hd : beNat privkeyD.1 < n) (hQ : IsPublicKey (beNat privkeyD.1) qx qy) :
    Ensures Status.ub (demoP256EcdsaSign draws privkeyD hash) fun o =>
      Verifies qx qy (beNat hash.1) (beNat o.1.1) (beNat o.2.1) := by
  obtain ⟨e, he, hval⟩ := modReduceOnce_ok (bnFromBytesBe hash) (m := P256_N) (by decide)
  have re := Residue.mod val_P256_N (by decide : 0 < n) hval
  rw [bnFromBytesBe_val] at re
  rw [demoP256EcdsaSign, he, ok_bind]
  exact signLoop_ensures (residue_fromBytes hd) re hQ draws 64 0

/-- Whatever the random bytes are: what is signed with the private key `d` is verified with the public key `[d] G`. -/
theorem signed_verifies (draws : Nat → Option (BytesN 32)) (privkeyD hash qx qy r s : BytesN 32)
    (hd : 1 ≤ beNat privkeyD.1 ∧ beNat privkeyD.1 < n) (hQ : IsPublicKey (beNat privkeyD.1) (beNat qx.1) (beNat qy.1))
    (hsign : demoP256EcdsaSign draws privkeyD hash = .ok (r, s)) : p256EcdsaVerify qx qy hash r s = .ok () := by
  apply (ecdsaVerify_decides qx qy hash r s).ok_iff.mpr
  exact (sign_ensures draws privkeyD hash hd.2 hQ).2 (r, s) hsign

theorem gx_ne_zero : (gx : ZMod n) ≠ 0 := by
  rw [Ne, ZMod.natCast_eq_zero_iff]
  decide

/-- With the nonce 1, `r` is the coordinate of the generator, so signing fails only if that makes `s` zero. -/
theorem sign_nonce_one (privkeyD hash : BytesN 32) (hd : beNat privkeyD.1 < n)
    (hs : (beNat hash.1 : ZMod n) + gx * beNat privkeyD.1 ≠ 0) :
    ∃ r s, demoP256EcdsaSign (fun _ => some bytesOne) privkeyD hash = .ok (r, s) := by
  have hone : beNat bytesOne.1 = 1 := by decide
  obtain ⟨e, he, hval⟩ := modReduceOnce_ok (bnFromBytesBe hash) (m := P256_N) (by decide)
  have re := Residue.mod val_P256_N (by decide : 0 < n) hval
  rw [bnFromBytesBe_val] at re
  obtain ⟨x, y, h, r, s, hR, hr, rs, hattempt⟩ := signAttempt_eq (residue_fromBytes hd) re (k := bnFromBytesBe bytesOne)
    (by rw [bnFromBytesBe_val, hone]; decide)
  rw [bnFromBytesBe_val, hone] at hR rs
  obtain ⟨rfl, -⟩ := Point.some.inj ((one_nsmul G).symm.trans hR)
  rw [ZMod.val_natCast_of_lt (by decide)] at hr
  have hcast : (bnVal r.1 : ZMod n) = gx := by rw [hr, ZMod.natCast_mod]
  have hpos : ¬ (bnIsZero r = true ∨ bnIsZero s = true) := by
    rw [rs.eq_zero_iff, bnIsZero_iff, hcast, Nat.cast_one, inv_one, one_mul, not_or]
    refine ⟨fun h0 => gx_ne_zero ?_, hs⟩
    rw [← hcast, h0, Nat.cast_zero]
  refine ⟨bnToBytesBe r, bnToBytesBe s, ?_⟩
  rw [demoP256EcdsaSign, he, ok_bind, signLoop]
  simp only
  rw [hattempt, ok_bind, if_neg hpos]
  rfl

/-- The digest 0, signed with the private key 1 and the nonce 1. -/
theorem signed_verifies_one : ∃ r s,
    demoP256EcdsaSign (fun _ => some ⟨beBytes 32 1, by simp⟩) ⟨beBytes 32 1, by simp⟩ (zeros 32) = .ok (r, s) ∧
      p256EcdsaVerify ⟨beBytes 32 gx, by simp⟩ ⟨beBytes 32 gy, by simp⟩ (zeros 32) r s = .ok () := by
  have hone : beNat bytesOne.1 = 1 := by decide
  have hgx : beNat (beBytes 32 gx) = gx := by decide
  have hgy : beNat (beBytes 32 gy) = gy := by decide
  have hQ : IsPublicKey (beNat bytesOne.1) (beNat (beBytes 32 gx)) (beNat (beBytes 32 gy)) := by
    rw [hone, hgx, hgy]
    exact ⟨by decide, by decide, _, one_nsmul G⟩
  obtain ⟨r, s, hsign⟩ := sign_nonce_one bytesOne (zeros 32) (by rw [hone]; decide) (by
    rw [show beNat (zeros 32).1 = 0 by decide, hone, Nat.cast_zero, zero_add, Nat.cast_one, mul_one]
    exact gx_ne_zero)
  exact ⟨r, s, hsign, signed_verifies _ _ _ _ _ _ _ (by rw [hone]; decide) hQ hsign⟩

end ND.Proof.P256
