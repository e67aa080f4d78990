import NanoDtls.Proof.P256.Points

/-!
# ECDSA verification

`nd_p256_point_is_valid` accepts the affine points of the curve, and
`nd_p256_ecdsa_verify` the signatures of the specification; it returns
`ND_ERR_AUTH_FAILED` for everything else.
-/

namespace ND.Proof.P256

open ND.Impl ND.Impl.P256
open ND.Spec.Ecdsa (p n curve G OnCurve Verifies nonsingular)
open WeierstrassCurve.Affine (Point)

theorem fp_fromBytes {b : BytesN 32} (h : beNat b.1 < p) : Fp (bnFromBytesBe b) (beNat b.1 : ZMod p) :=
  ⟨by rwa [bnFromBytesBe_val], by rw [bnFromBytesBe_val]⟩

theorem fp_P256_A : Fp P256_A (-3) := by
  refine ⟨by decide, ?_⟩
  have h : ((bnVal P256_A.1 + 3 : Nat) : ZMod p) = 0 := (ZMod.natCast_eq_zero_iff _ p).mpr (by decide)
  rw [Nat.cast_add] at h
  exact eq_neg_of_add_eq_zero_left h

theorem fp_P256_B : Fp P256_B (Spec.Ecdsa.b : ZMod p) :=
  ⟨by decide, congrArg Nat.cast (by decide : bnVal P256_B.1 = Spec.Ecdsa.b)⟩

theorem fp_P256_GX : Fp P256_GX (Spec.Ecdsa.gx : ZMod p) :=
  ⟨by decide, congrArg Nat.cast (by decide : bnVal P256_GX.1 = Spec.Ecdsa.gx)⟩

theorem fp_P256_GY : Fp P256_GY (Spec.Ecdsa.gy : ZMod p) :=
  ⟨by decide, congrArg Nat.cast (by decide : bnVal P256_GY.1 = Spec.Ecdsa.gy)⟩

/-- Reduced bignums are equal exactly if their residues are. -/
theorem Residue.cmp_eq_zero {q : Nat} {a b : Bn256} {x y : ZMod q} (ha : Residue q a x) (hb : Residue q b y) :
    bnCmp a b = 0 ↔ x = y := by
  rw [bnCmp_eq_zero, ← ha.2, ← hb.2, ZMod.natCast_eq_natCast_iff', Nat.mod_eq_of_lt ha.1, Nat.mod_eq_of_lt hb.1]

/-- `nd_p256_point_is_valid`. -/
theorem pointIsValid_decides (qx qy : BytesN 32) :
    Decides (p256PointIsValid qx qy) (OnCurve (beNat qx.1) (beNat qy.1)) .badArg := by
  have hlt : (0 ≤ bnCmp (bnFromBytesBe qx) P256_P ∨ 0 ≤ bnCmp (bnFromBytesBe qy) P256_P) ↔
      ¬ (beNat qx.1 < p ∧ beNat qy.1 < p) := by
    rw [bnCmp_nonneg, bnCmp_nonneg, bnFromBytesBe_val, bnFromBytesBe_val, val_P256_P]
    omega
  simp only [p256PointIsValid]
  by_cases h : beNat qx.1 < p ∧ beNat qy.1 < p
  · have rx := fp_fromBytes h.1
    have ry := fp_fromBytes h.2
    obtain ⟨lhs, hlhs, rlhs⟩ := ry.mul ry
    obtain ⟨x2, hx2, rx2⟩ := rx.mul rx
    obtain ⟨x3, hx3, rx3⟩ := rx2.mul rx
    obtain ⟨ax, hax, rax⟩ := fp_P256_A.mul rx
    have rrhs := (rx3.add rax).add fp_P256_B
    rw [failIf_bind (not_congr hlt |>.mpr (not_not.mpr h))]
    simp only [hlhs, hx2, hx3, hax, ok_bind]
    refine (decides_failIf _).congr ?_
    rw [not_not, rlhs.cmp_eq_zero rrhs, OnCurve, show ∀ x y : ZMod p, x * x * x + -3 * x + y = x ^ 3 - 3 * x + y by
      intro x y; ring, ← pow_two]
    simp only [h.1, h.2, true_and]
  · rw [failIf_pos _ (hlt.mpr h)]
    exact .inr ⟨rfl, fun hc => h ⟨hc.1, hc.2.1⟩⟩

/-- The check of `r` and of `s`. -/
theorem scalar_check (b : BytesN 32) :
    (bnIsZero (bnFromBytesBe b) = true ∨ 0 ≤ bnCmp (bnFromBytesBe b) P256_N) ↔ ¬ (1 ≤ beNat b.1 ∧ beNat b.1 < n) := by
  rw [bnIsZero_iff, bnCmp_nonneg, bnFromBytesBe_val, val_P256_N]
  omega

theorem residue_fromBytes {b : BytesN 32} (h : beNat b.1 < n) :
    Residue n (bnFromBytesBe b) (beNat b.1 : ZMod n) :=
  ⟨by rwa [bnFromBytesBe_val], by rw [bnFromBytesBe_val]⟩

/-- The end of the verification, on the point that the sum is. -/
theorem checkSum_decides {e : EcPoint} {R : curve.Point} (h : Rep e R) (rr : Bn256) :
    Decides (checkSum rr e) (∃ x y hR, R = Point.some x y hR ∧ x.val % n = bnVal rr.1) .authFailed := by
  cases e with
  | infinity =>
    refine .inr ⟨rfl, ?_⟩
    rintro ⟨x, y, hR, hsome, -⟩
    exact Point.some_ne_zero hR (hsome.symm.trans h)
  | jacobian x y z =>
    obtain ⟨X, Y, Z, -, -, -, hJ⟩ := id h
    obtain ⟨X', Y', hR, rfl, -⟩ := hJ.exists_affine
    obtain ⟨o, ho, rx, -⟩ := pointToAffine_ok h
    obtain ⟨v, hv, hval⟩ := modReduceOnce_ok o.1 (m := P256_N) (by decide)
    rw [val_P256_N, ← rx.val] at hval
    simp only [checkSum, ho, hv, ok_bind]
    refine (decides_failIf _).congr ?_
    rw [not_not, bnCmp_eq_zero, hval]
    constructor
    · intro heq
      exact ⟨X', Y', hR, rfl, heq⟩
    · rintro ⟨x, y, hR', hsome, heq⟩
      obtain ⟨rfl, rfl⟩ := Point.some.inj hsome
      exact heq

/-- The verification of a valid key and of `r` and `s` in range. -/
theorem ecdsaVerify_of_checked {qx qy hash r s : BytesN 32} (hQ : OnCurve (beNat qx.1) (beNat qy.1))
    (hr : 1 ≤ beNat r.1 ∧ beNat r.1 < n) (hs : 1 ≤ beNat s.1 ∧ beNat s.1 < n) :
    Decides (p256EcdsaVerify qx qy hash r s)
      (Verifies (beNat qx.1) (beNat qy.1) (beNat hash.1) (beNat r.1) (beNat s.1)) .authFailed := by
  obtain ⟨e, he, hval⟩ := modReduceOnce_ok (bnFromBytesBe hash) (m := P256_N) (by decide)
  have re := Residue.mod val_P256_N (by decide : 0 < n) hval
  rw [bnFromBytesBe_val] at re
  obtain ⟨w, hw, rinv⟩ := Residue.inv val_P256_N (by decide) (residue_fromBytes hs.2)
  obtain ⟨u1, hu1, ru1⟩ := re.mul val_P256_N rinv
  obtain ⟨u2, hu2, ru2⟩ := (residue_fromBytes hr.2).mul val_P256_N rinv
  obtain ⟨p1, hp1, rp1⟩ := pointScalarMult_ok u1
    (rep_fromAffine fp_P256_GX fp_P256_GY (nonsingular Spec.Ecdsa.g_on_curve))
  obtain ⟨p2, hp2, rp2⟩ := pointScalarMult_ok u2
    (rep_fromAffine (fp_fromBytes hQ.1) (fp_fromBytes hQ.2.1) (nonsingular hQ.2.2))
  obtain ⟨sum, hsum, rsum⟩ := pointAdd_ok rp1 rp2
  rw [← ru1.val, ← ru2.val] at rsum
  simp only [p256EcdsaVerify, (pointIsValid_decides qx qy).ok_iff.mpr hQ, orAuthFailed, ok_bind]
  rw [failIf_bind (not_congr (scalar_check r) |>.mpr (not_not.mpr hr)),
    failIf_bind (not_congr (scalar_check s) |>.mpr (not_not.mpr hs))]
  simp only [he, hw, hu1, hu2, hp1, hp2, hsum, ok_bind]
  refine (checkSum_decides rsum _).congr ?_
  rw [bnFromBytesBe_val]
  constructor
  · intro h
    exact ⟨hQ.1, hQ.2.1, hr, hs, hQ.2.2, h⟩
  · intro h
    obtain ⟨-, -, -, -, _, hsum⟩ := h
    exact hsum

/-- `nd_p256_ecdsa_verify` decides the specification. -/
theorem ecdsaVerify_decides (qx qy hash r s : BytesN 32) : Decides (p256EcdsaVerify qx qy hash r s)
    (Verifies (beNat qx.1) (beNat qy.1) (beNat hash.1) (beNat r.1) (beNat s.1)) .authFailed := by
  by_cases hQ : OnCurve (beNat qx.1) (beNat qy.1)
  · by_cases hr : 1 ≤ beNat r.1 ∧ beNat r.1 < n
    · by_cases hs : 1 ≤ beNat s.1 ∧ beNat s.1 < n
      · exact ecdsaVerify_of_checked hQ hr hs
      · refine .inr ⟨?_, fun h => hs h.2.2.2.1⟩
        simp only [p256EcdsaVerify, (pointIsValid_decides qx qy).ok_iff.mpr hQ, orAuthFailed, ok_bind]
        rw [failIf_bind (not_congr (scalar_check r) |>.mpr (not_not.mpr hr)), failIf_pos _ ((scalar_check s).mpr hs)]
        rfl
    · refine .inr ⟨?_, fun h => hr h.2.2.1⟩
      simp only [p256EcdsaVerify, (pointIsValid_decides qx qy).ok_iff.mpr hQ, orAuthFailed, ok_bind]
      rw [failIf_pos _ ((scalar_check r).mpr hr)]
      rfl
  · refine .inr ⟨?_, fun h => hQ ⟨h.1, h.2.1, h.2.2.2.2.1⟩⟩
    rw [p256EcdsaVerify, (pointIsValid_decides qx qy).error hQ]
    rfl

/-- For all inputs: `ND_OK` exactly for a public key on the curve and a signature of the digest under
it, and `ND_ERR_AUTH_FAILED` for everything else. -/
theorem ecdsa_verify_correct (qx qy hash r s : BytesN 32) :
    (p256EcdsaVerify qx qy hash r s = .ok () ↔
      Verifies (beNat qx.1) (beNat qy.1) (beNat hash.1) (beNat r.1) (beNat s.1)) ∧
    (p256EcdsaVerify qx qy hash r s = .ok () ∨ p256EcdsaVerify qx qy hash r s = .error .authFailed) := by
  have h := ecdsaVerify_decides qx qy hash r s
  refine ⟨h.ok_iff, ?_⟩
  rcases h with ⟨hok, -⟩ | ⟨herr, -⟩
  · exact .inl hok
  · exact .inr herr

end ND.Proof.P256
