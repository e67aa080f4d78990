import NanoDtls.Framework.CurveOrder
import NanoDtls.Proof.P256.Sign

/-!
# Keys and signatures of P-256

The curve has `n` points (`card_curve`), so that every point but infinity is a
multiple of the base point. The check of a public key, which is that the
point is on the curve, therefore accepts the public keys of private keys and
nothing else (`valid_iff_publicKey`). And what `nd_p256_ecdsa_verify` accepts is
what `nd_demo_p256_ecdsa_sign` returns with the private key for some nonce
(`accepted_iff_signed`).
-/

namespace ND.Proof.P256

open ND.Impl ND.Impl.P256 ND.Impl.Sign
open ND.Spec.Ecdsa (p n curve G Verifies OnCurve nonsingular)
open WeierstrassCurve.Affine (Point)

/-! ## The order of the curve -/

/-- The inverse of `X ^ p - X` modulo `X³ - 3 X + b`. -/
def rootInverse : CubicResidue :=
  ⟨76626890310466861426869089647039036757962535851890885406097439786770458211455,
   74462945259064871768191128030512052509059297803194871526163573358218695456204,
   34768139465301476436978405170953382516735956999154666452188405812258086013549⟩

theorem no_order_two (x : ZMod p) : x ^ 3 + -3 * x + (Spec.Ecdsa.b : ZMod p) ≠ 0 := by
  have hcheck : CubicResidue.check p 3 (p - Spec.Ecdsa.b) 256 rootInverse = true := by decide +kernel
  have hroot := CubicResidue.no_root (by decide) hcheck x
  rw [Nat.cast_sub (by decide), ZMod.natCast_self] at hroot
  intro h
  refine hroot ?_
  push_cast
  linear_combination h

theorem card_curve : Nat.card curve.Point = n :=
  card_points_eq Spec.Ecdsa.two_ne_zero_p no_order_two Spec.Ecdsa.prime_n (by rw [ZMod.card]; decide) (Point.some_ne_zero _) order_G

/-- Every point but infinity is a multiple of the base point by a scalar in range. -/
theorem exists_scalar {Q : curve.Point} (hQ : Q ≠ 0) : ∃ d, 1 ≤ d ∧ d < n ∧ d • G = Q := by
  have hmem : Q ∈ AddSubmonoid.multiples G := mem_multiples_of_prime_card card_curve (Point.some_ne_zero _)
  obtain ⟨k, hk⟩ := hmem
  have hmod : (k % n) • G = Q := by
    rw [← nsmul_eq_mod_nsmul k order_G]
    exact hk
  refine ⟨k % n, Nat.one_le_iff_ne_zero.mpr fun h0 => hQ ?_, Nat.mod_lt _ (by decide), hmod⟩
  rw [← hmod, h0, zero_nsmul]

theorem scalar_unique {d d' : Nat} (hd : d < n) (hd' : d' < n) (h : d • G = d' • G) : d = d' := by
  have horder : addOrderOf G = n := addOrderOf_eq_prime order_G (Point.some_ne_zero _)
  refine nsmul_injOn_Iio_addOrderOf ?_ ?_ h
  · rwa [Set.mem_Iio, horder]
  · rwa [Set.mem_Iio, horder]

/-! ## Public keys -/

theorem onCurve_of_isPublicKey {d qx qy : Nat} (h : IsPublicKey d qx qy) : OnCurve qx qy := by
  obtain ⟨hqx, hqy, hon, -⟩ := h
  refine ⟨hqx, hqy, ?_⟩
  have heq := shortWeierstrass_equation.mp hon.1
  linear_combination heq

theorem exists_privateKey {qx qy : Nat} (h : OnCurve qx qy) : ∃ d, 1 ≤ d ∧ d < n ∧ IsPublicKey d qx qy := by
  obtain ⟨hqx, hqy, hcurve⟩ := h
  obtain ⟨d, hd, hlt, hQ⟩ := exists_scalar (Point.some_ne_zero (nonsingular hcurve))
  exact ⟨d, hd, hlt, hqx, hqy, _, hQ⟩

/-- For all 64 bytes: `nd_p256_point_is_valid` accepts them exactly if they are the public key of a private key
between 1 and `n - 1`, which is then the only one. -/
theorem valid_iff_publicKey (qx qy : BytesN 32) :
    p256PointIsValid qx qy = .ok () ↔ ∃! d, 1 ≤ d ∧ d < n ∧ IsPublicKey d (beNat qx.1) (beNat qy.1) := by
  rw [(pointIsValid_decides qx qy).ok_iff]
  constructor
  · intro h
    obtain ⟨d, hd, hlt, hQ⟩ := exists_privateKey h
    refine ⟨d, ⟨hd, hlt, hQ⟩, ?_⟩
    rintro d' ⟨-, hlt', hQ'⟩
    obtain ⟨-, -, _, hpoint⟩ := hQ
    obtain ⟨-, -, _, hpoint'⟩ := hQ'
    exact scalar_unique hlt' hlt (hpoint'.trans hpoint.symm)
  · rintro ⟨d, ⟨-, -, hQ⟩, -⟩
    exact onCurve_of_isPublicKey hQ

/-! ## Signatures -/

/-- A signature determines its nonce. -/
theorem exists_nonce {d e r s qx qy : Nat} (hQ : IsPublicKey d qx qy) (h : Verifies qx qy e r s) :
    ∃ k, 1 ≤ k ∧ k < n ∧ ∃ x y, ∃ hR : curve.Nonsingular x y, k • G = .some x y hR ∧ x.val % n = r ∧
      (s : ZMod n) = (k : ZMod n)⁻¹ * (e + r * d) := by
  obtain ⟨-, -, hr, hs, hcurve, x, y, hR, hsum, hx⟩ := h
  obtain ⟨-, -, hon, hd⟩ := hQ
  have hs0 : (s : ZMod n) ≠ 0 := Signer.natCast_ne_zero_n hs.1 hs.2
  rw [← hd, ← mul_nsmul', ← add_nsmul, nsmul_eq_mod_nsmul _ order_G] at hsum
  set k := ((e * (s : ZMod n)⁻¹).val + (r * (s : ZMod n)⁻¹).val * d) % n with hk
  have hk0 : k ≠ 0 := by
    intro h0
    rw [h0, zero_nsmul] at hsum
    exact Point.some_ne_zero _ hsum.symm
  have hcast : (k : ZMod n) * s = e + r * d := by
    rw [hk, ZMod.natCast_mod, Nat.cast_add, Nat.cast_mul, ZMod.natCast_zmod_val, ZMod.natCast_zmod_val]
    field_simp
  have hlt : k < n := Nat.mod_lt _ (by decide)
  refine ⟨k, Nat.one_le_iff_ne_zero.mpr hk0, hlt, x, y, hR, hsum, hx, ?_⟩
  rw [← hcast, inv_mul_cancel_left₀ (Signer.natCast_ne_zero_n (Nat.pos_of_ne_zero hk0) hlt)]

theorem bytes_eq_of_beNat {b b' : BytesN 32} (h : beNat b.1 = beNat b'.1) : b = b' :=
  Subtype.ext (beNat_inj (b.2.trans b'.2.symm) h)

/-- The signer with that nonce. -/
theorem sign_of_nonce {privkeyD hash r s : BytesN 32} {k : Nat} (hd : beNat privkeyD.1 < n) (hk : 1 ≤ k ∧ k < n) {x y : ZMod p}
    {hR : curve.Nonsingular x y} (hkG : k • G = .some x y hR) (hr : x.val % n = beNat r.1) (hr0 : 1 ≤ beNat r.1)
    (hs0 : 1 ≤ beNat s.1 ∧ beNat s.1 < n)
    (hs : (beNat s.1 : ZMod n) = (k : ZMod n)⁻¹ * (beNat hash.1 + beNat r.1 * beNat privkeyD.1)) :
    demoP256EcdsaSign (fun _ => some ⟨beBytes 32 k, length_beBytes 32 k⟩) privkeyD hash = .ok (r, s) := by
  obtain ⟨e, he, hval⟩ := modReduceOnce_ok (bnFromBytesBe hash) (m := P256_N) (by decide)
  have re := Residue.mod val_P256_N (by decide : 0 < n) hval
  rw [bnFromBytesBe_val] at re
  have hkVal : bnVal (bnFromBytesBe ⟨beBytes 32 k, length_beBytes 32 k⟩).1 = k := by
    rw [bnFromBytesBe_val, beNat_beBytes]
    exact Nat.mod_eq_of_lt (hk.2.trans (by decide))
  obtain ⟨x', y', h', r', s', hpoint, hr', rs, hattempt⟩ := signAttempt_eq (residue_fromBytes hd) re (by rwa [hkVal])
  rw [hkVal] at hpoint rs
  obtain ⟨rfl, rfl⟩ := Point.some.inj (hkG.symm.trans hpoint)
  rw [hr] at hr'
  -- `r` and `s` are what the attempt finds
  have hsVal : bnVal s'.1 = beNat s.1 := by
    have hcast : (bnVal s'.1 : ZMod n) = (beNat s.1 : Nat) := by rw [rs.2, hs, hr']
    rw [ZMod.natCast_eq_natCast_iff', Nat.mod_eq_of_lt rs.1, Nat.mod_eq_of_lt hs0.2] at hcast
    exact hcast
  have hnonzero : ¬ (bnIsZero r' = true ∨ bnIsZero s' = true) := by
    rw [bnIsZero_iff, bnIsZero_iff, hr', hsVal]
    omega
  have hrBytes : bnToBytesBe r' = r := bytes_eq_of_beNat (by rw [bnToBytesBe_val, hr'])
  have hsBytes : bnToBytesBe s' = s := bytes_eq_of_beNat (by rw [bnToBytesBe_val, hsVal])
  rw [demoP256EcdsaSign, he, ok_bind, signLoop]
  simp only [hattempt, if_neg hnonzero, ok_bind, hrBytes, hsBytes, pure_eq_ok]

/-- For all inputs: `nd_p256_ecdsa_verify` accepts a public key, a digest and a signature exactly if there is a private key with
this public key with which `nd_demo_p256_ecdsa_sign` returns the signature for the digest, for some random bytes. -/
theorem accepted_iff_signed (qx qy hash r s : BytesN 32) : p256EcdsaVerify qx qy hash r s = .ok () ↔
    ∃ privkeyD draws, (1 ≤ beNat privkeyD.1 ∧ beNat privkeyD.1 < n) ∧
      IsPublicKey (beNat privkeyD.1) (beNat qx.1) (beNat qy.1) ∧ demoP256EcdsaSign draws privkeyD hash = .ok (r, s) := by
  rw [(ecdsaVerify_decides qx qy hash r s).ok_iff]
  constructor
  · intro h
    obtain ⟨d, hd, hlt, hQ⟩ := exists_privateKey ⟨h.1, h.2.1, h.2.2.2.2.1⟩
    obtain ⟨k, hk, hkn, x, y, hR, hkG, hx, hs⟩ := exists_nonce hQ h
    have hdVal : beNat (beBytes 32 d) = d := by
      rw [beNat_beBytes]
      exact Nat.mod_eq_of_lt (hlt.trans (by decide))
    refine ⟨⟨beBytes 32 d, length_beBytes 32 d⟩, fun _ => some ⟨beBytes 32 k, length_beBytes 32 k⟩, ?_, ?_, ?_⟩
    · rw [hdVal]
      exact ⟨hd, hlt⟩
    · rwa [hdVal]
    · exact sign_of_nonce (by rwa [hdVal]) ⟨hk, hkn⟩ hkG hx h.2.2.1.1 h.2.2.2.1 (by rw [hs, hdVal])
  · rintro ⟨privkeyD, draws, hd, hQ, hsign⟩
    exact (sign_ensures draws privkeyD hash hd.2 hQ).2 (r, s) hsign

/-! ## Signatures with the same `r` -/

/-- `n - s`. -/
def negS (s : BytesN 32) : BytesN 32 := ⟨beBytes 32 (n - beNat s.1), length_beBytes 32 _⟩

theorem beNat_negS (s : BytesN 32) : beNat (negS s).1 = n - beNat s.1 := by
  rw [negS, beNat_beBytes]
  exact Nat.mod_eq_of_lt ((Nat.sub_le _ _).trans_lt (by decide))

theorem cast_sub_n {a : Nat} (h : a < n) : ((n - a : Nat) : ZMod n) = -(a : ZMod n) := by
  rw [Nat.cast_sub h.le, ZMod.natCast_self, zero_sub]

/-- The opposite nonce gives the opposite `s`. -/
theorem verifies_neg {d e r s qx qy : Nat} (hQ : IsPublicKey d qx qy) (h : Verifies qx qy e r s) : Verifies qx qy e r (n - s) := by
  obtain ⟨k, hk, hkn, x, y, hR, hkG, hx, hs⟩ := exists_nonce hQ h
  obtain ⟨-, -, hr, hs0, -⟩ := h
  have hneg : (n - k) • G = -(k • G) := by
    rw [eq_neg_iff_add_eq_zero, ← add_nsmul, Nat.sub_add_cancel hkn.le, order_G]
  rw [hkG, Point.neg_some] at hneg
  have hk0 : ((n - k : Nat) : ZMod n) ≠ 0 := by
    rw [cast_sub_n hkn, neg_ne_zero]
    exact Signer.natCast_ne_zero_n hk hkn
  refine verifies_of_nonce hQ hk0 hneg hx hr ⟨by omega, by omega⟩ ?_
  rw [cast_sub_n hs0.2, cast_sub_n hkn, hs, inv_neg, neg_mul]

/-- What the x-coordinate is, if it is `r` modulo `n`. -/
theorem eq_or_eq_of_mod {x : ZMod p} {r : Nat} (h : x.val % n = r) : x = r ∨ x = (r + n : Nat) := by
  have hdiv : x.val / n < 2 := Nat.div_lt_of_lt_mul ((ZMod.val_lt x).trans (by decide))
  have hval : x.val = r ∨ x.val = r + n := by
    have hsplit := Nat.div_add_mod x.val n
    rw [h] at hsplit
    rcases Nat.lt_or_ge (x.val / n) 1 with h0 | h1
    · rw [Nat.lt_one_iff.mp h0] at hsplit
      omega
    · rw [show x.val / n = 1 by omega] at hsplit
      omega
  rw [← ZMod.natCast_zmod_val x]
  exact hval.imp (congrArg _) (congrArg _)

/-- For all public keys, digests and `r`: with `s` also `n - s` is accepted, which is another one, and no more than four are. -/
theorem accepted_s (qx qy hash r : BytesN 32) :
    (∀ s, p256EcdsaVerify qx qy hash r s = .ok () → p256EcdsaVerify qx qy hash r (negS s) = .ok () ∧ negS s ≠ s) ∧
    ∀ accepted : Finset (BytesN 32), (∀ s ∈ accepted, p256EcdsaVerify qx qy hash r s = .ok ()) → accepted.card ≤ 4 := by
  simp only [(ecdsaVerify_decides qx qy hash r _).ok_iff]
  constructor
  · intro s h
    obtain ⟨d, -, -, hQ⟩ := exists_privateKey ⟨h.1, h.2.1, h.2.2.2.2.1⟩
    rw [beNat_negS]
    refine ⟨verifies_neg hQ h, fun heq => ?_⟩
    -- `n` is odd
    have hval : n - beNat s.1 = beNat s.1 := by rw [← beNat_negS, heq]
    have hodd : n % 2 = 1 := by decide
    have hlt := h.2.2.2.1.2
    omega
  · intro accepted haccepted
    rcases accepted.eq_empty_or_nonempty with rfl | ⟨s₀, hs₀⟩
    · exact Nat.zero_le _
    have h₀ := haccepted s₀ hs₀
    obtain ⟨d, -, -, hQ⟩ := exists_privateKey ⟨h₀.1, h₀.2.1, h₀.2.2.2.2.1⟩
    -- each `s` has a nonce, and the point of the nonce is one of four
    have hnonce : ∀ s : BytesN 32, ∃ k, s ∈ accepted → k < n ∧ (beNat s.1 : ZMod n) = (k : ZMod n)⁻¹ * (beNat hash.1 + beNat r.1 * d) ∧
        pointCode (k • G) ∈ ({(beNat r.1 : ZMod p), ((beNat r.1 + n : Nat) : ZMod p)} ×ˢ Finset.univ : Finset (ZMod p × Bool)).map .some := by
      intro s
      by_cases hs : s ∈ accepted
      · obtain ⟨k, -, hkn, x, y, hR, hkG, hx, hsk⟩ := exists_nonce hQ (haccepted s hs)
        refine ⟨k, fun _ => ⟨hkn, hsk, ?_⟩⟩
        rw [hkG]
        refine Finset.mem_map_of_mem _ (Finset.mem_product.mpr ⟨?_, Finset.mem_univ _⟩)
        rw [Finset.mem_insert, Finset.mem_singleton]
        exact eq_or_eq_of_mod hx
      · exact ⟨0, fun h => absurd h hs⟩
    choose k hk using hnonce
    have hinj : Set.InjOn (fun s => pointCode (k s • G)) accepted := by
      intro s hs s' hs' h
      have hkk : k s = k s' := scalar_unique (hk s hs).1 (hk s' hs').1 (pointCode_injective h)
      have hcast : (beNat s.1 : ZMod n) = (beNat s'.1 : Nat) := by rw [(hk s hs).2.1, (hk s' hs').2.1, hkk]
      rw [ZMod.natCast_eq_natCast_iff', Nat.mod_eq_of_lt (haccepted s hs).2.2.2.1.2,
        Nat.mod_eq_of_lt (haccepted s' hs').2.2.2.1.2] at hcast
      exact bytes_eq_of_beNat hcast
    refine (Finset.card_le_card_of_injOn _ (fun s hs => (hk s hs).2.2) hinj).trans ?_
    rw [Finset.card_map, Finset.card_product, Finset.card_univ, Fintype.card_bool]
    exact Nat.mul_le_mul_right 2 (Finset.card_le_two)

end ND.Proof.P256
