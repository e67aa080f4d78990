import NanoDtls.Framework.BinaryMethod
import NanoDtls.Proof.P256.Bignum
import NanoDtls.Spec.Ecdsa
import Mathlib.FieldTheory.Finite.Basic
import Mathlib.Algebra.Group.TypeTags.Basic
import Mathlib.Tactic.FieldSimp

/-!
# Points of P-256

Reduced bignums are residues (`Residue`), and an `ec_point` is a point of the
curve (`Rep`): infinity, or Jacobian coordinates with `Z ≠ 0`. `point_double`
and `point_add` are the group law for all points, their exceptional cases
included, so `point_scalar_mult` is the multiple in the group.
-/

namespace ND.Proof.P256

open ND.Impl ND.Impl.P256
open ND.Spec.Ecdsa (p n curve)

/-! ## Residues -/

/-- `a` is reduced modulo `q` and has residue `x`. -/
def Residue (q : Nat) (a : Bn256) (x : ZMod q) : Prop := bnVal a.1 < q ∧ (bnVal a.1 : ZMod q) = x

theorem Residue.eq_zero_iff {q : Nat} {a : Bn256} {x : ZMod q} (h : Residue q a x) : bnIsZero a = true ↔ x = 0 := by
  rw [bnIsZero_iff, ← h.2, ZMod.natCast_eq_zero_iff]
  exact ⟨fun h0 => h0 ▸ Nat.dvd_zero q, fun hd => Nat.eq_zero_of_dvd_of_lt hd h.1⟩

theorem Residue.val {q : Nat} {a : Bn256} {x : ZMod q} (h : Residue q a x) : x.val = bnVal a.1 := by
  rw [← h.2, ZMod.val_natCast, Nat.mod_eq_of_lt h.1]

section Modulus

variable {q : Nat} {a b m : Bn256} {x y : ZMod q} (hm : bnVal m.1 = q)
include hm

theorem Residue.mod {v : Nat} (hq : 0 < q) (h : bnVal a.1 = v % bnVal m.1) : Residue q a v := by
  rw [hm] at h
  exact ⟨h ▸ Nat.mod_lt _ hq, by rw [h, ZMod.natCast_mod]⟩

theorem Residue.add (ha : Residue q a x) (hb : Residue q b y) : Residue q (modAdd a b m) (x + y) := by
  have h := Residue.mod hm (Nat.zero_lt_of_lt ha.1) (modAdd_val (hm ▸ ha.1) (hm ▸ hb.1))
  rwa [Nat.cast_add, ha.2, hb.2] at h

theorem Residue.sub (ha : Residue q a x) (hb : Residue q b y) : Residue q (modSub a b m) (x - y) := by
  have h := Residue.mod hm (Nat.zero_lt_of_lt ha.1) (modSub_val (hm ▸ ha.1) (hm ▸ hb.1))
  have hle : bnVal b.1 ≤ bnVal a.1 + bnVal m.1 := by rw [hm]; exact Nat.le_of_lt (Nat.lt_add_left _ hb.1)
  rwa [Nat.cast_sub hle, Nat.cast_add, ha.2, hb.2, hm, ZMod.natCast_self, add_zero] at h

theorem Residue.mul (ha : Residue q a x) (hb : Residue q b y) :
    ∃ o, modMul a b m = .ok o ∧ Residue q o (x * y) := by
  have hq := Nat.zero_lt_of_lt ha.1
  obtain ⟨o, ho, hval⟩ := modMul_ok a b (m := m) (by rw [hm]; exact hq)
  have h := Residue.mod hm hq hval
  rw [Nat.cast_mul, ha.2, hb.2] at h
  exact ⟨o, ho, h⟩

/-- `mod_pow`, for the whole exponent. -/
theorem Residue.pow (hq : 1 < q) (ha : Residue q a x) (e : Bn256) :
    ∃ o, modPow a e m = .ok o ∧ Residue q o (x ^ bnVal e.1) := by
  have hone : Residue q (bnOfLimb 1) 1 := ⟨hq, by simp [bnOfLimb]⟩
  have hbits : bnTestBit e = (bnVal e.1).testBit := funext (bnTestBit_eq e)
  obtain ⟨s, hs, hacc, -⟩ := binaryMethod_ok (Residue.mul hm) (fun h => Residue.mul hm h h) hone ha (bnVal e.1) 256
  rw [Nat.mod_eq_of_lt (Bn256.lt e)] at hacc
  rw [← hbits] at hs
  refine ⟨s.1, ?_, hacc⟩
  rw [modPow, show powStep e m = binaryStep (modMul · · m) (fun b => modMul b b m) (bnTestBit e) from rfl, hs]
  rfl

/-- The exponent of `mod_inv`. -/
theorem bnVal_sub_two (h2 : 2 < q) : bnVal (bnSubRaw m (bnOfLimb 2)).1.1 = q - 2 := by
  obtain ⟨hs, -⟩ := bnSubRaw_val m (bnOfLimb 2)
  have hlt := Bn256.lt (bnSubRaw m (bnOfLimb 2)).1
  have hltm := Bn256.lt m
  rw [hm, show bnVal (bnOfLimb 2).1 = 2 from rfl] at hs
  omega

/-- `mod_inv`: Fermat's little theorem, and 0 has inverse 0. -/
theorem Residue.inv [hp : Fact q.Prime] (h2 : 2 < q) (ha : Residue q a x) :
    ∃ o, modInv a m = .ok o ∧ Residue q o x⁻¹ := by
  obtain ⟨o, ho, hr⟩ := Residue.pow hm hp.out.one_lt ha (bnSubRaw m (bnOfLimb 2)).1
  refine ⟨o, ho, ?_⟩
  rw [bnVal_sub_two hm h2] at hr
  rwa [show x⁻¹ = x ^ (q - 2) from ?_]
  rcases eq_or_ne x 0 with rfl | hx
  · rw [inv_zero, zero_pow (by omega)]
  · apply inv_eq_of_mul_eq_one_left
    rw [← pow_succ, show q - 2 + 1 = q - 1 by omega, ZMod.pow_card_sub_one_eq_one hx]

end Modulus

theorem val_P256_P : bnVal P256_P.1 = p := by decide

theorem val_P256_N : bnVal P256_N.1 = n := by decide

/-! ## The field of the curve -/

/-- A reduced element of the field of the curve. -/
abbrev Fp (a : Bn256) (x : ZMod p) : Prop := Residue p a x

theorem Fp.add {a b : Bn256} {x y : ZMod p} (ha : Fp a x) (hb : Fp b y) : Fp (modAdd a b P256_P) (x + y) :=
  Residue.add val_P256_P ha hb

theorem Fp.sub {a b : Bn256} {x y : ZMod p} (ha : Fp a x) (hb : Fp b y) : Fp (modSub a b P256_P) (x - y) :=
  Residue.sub val_P256_P ha hb

theorem Fp.mul {a b : Bn256} {x y : ZMod p} (ha : Fp a x) (hb : Fp b y) :
    ∃ o, modMul a b P256_P = .ok o ∧ Fp o (x * y) :=
  Residue.mul val_P256_P ha hb

theorem Fp.one : Fp (bnOfLimb 1) 1 := ⟨by decide, by simp [bnOfLimb]⟩

/-! ## Points -/

/-- The point of the curve that an `ec_point` is. -/
def Rep : EcPoint → curve.Point → Prop
  | .infinity, P => P = 0
  | .jacobian x y z, P => ∃ X Y Z, Fp x X ∧ Fp y Y ∧ Fp z Z ∧ JRep P X Y Z

theorem doubleJacobian_ok {x y z : Bn256} {X Y Z : ZMod p} {P : curve.Point} (hx : Fp x X) (hy : Fp y Y)
    (hz : Fp z Z) (h : JRep P X Y Z) : ∃ e, doubleJacobian x y z = .ok e ∧ Rep e (P + P) := by
  rcases eq_or_ne Y 0 with rfl | hY
  · exact ⟨.infinity, by rw [doubleJacobian, if_pos (hy.eq_zero_iff.mpr rfl)], h.double_eq_zero⟩
  have hy0 : ¬ bnIsZero y = true := fun h0 => hY (hy.eq_zero_iff.mp h0)
  obtain ⟨delta, hdelta, rdelta⟩ := hz.mul hz
  obtain ⟨gamma, hgamma, rgamma⟩ := hy.mul hy
  obtain ⟨beta, hbeta, rbeta⟩ := hx.mul rgamma
  obtain ⟨alphaBase, halphaBase, ralphaBase⟩ := (hx.sub rdelta).mul (hx.add rdelta)
  have ralpha := (ralphaBase.add ralphaBase).add ralphaBase
  obtain ⟨alphaSq, halphaSq, ralphaSq⟩ := ralpha.mul ralpha
  have rfour := (rbeta.add rbeta).add (rbeta.add rbeta)
  have rx3 := ralphaSq.sub (rfour.add rfour)
  obtain ⟨yzSq, hyzSq, ryzSq⟩ := (hy.add hz).mul (hy.add hz)
  have rz3 := (ryzSq.sub rgamma).sub rdelta
  obtain ⟨times, htimes, rtimes⟩ := ralpha.mul (rfour.sub rx3)
  obtain ⟨gammaSq, hgammaSq, rgammaSq⟩ := rgamma.mul rgamma
  have rfourSq := (rgammaSq.add rgammaSq).add (rgammaSq.add rgammaSq)
  have ry3 := rtimes.sub (rfourSq.add rfourSq)
  refine ⟨.jacobian _ _ _, ?_, _, _, _, rx3, ry3, rz3, ?_⟩
  · simp only [doubleJacobian, hy0, hdelta, hgamma, hbeta, halphaBase, halphaSq, hyzSq, htimes, hgammaSq, ok_bind]
    rfl
  · -- the code's M is 3 (X - Z²) (X + Z²), with a = -3
    have hM : 3 * ((X - Z * Z) * (X + Z * Z)) = 3 * X ^ 2 + -3 * Z ^ 4 := by ring
    exact (h.double Spec.Ecdsa.two_ne_zero_p hY hM rfl).of_eq (by ring) (by ring) (by ring)

theorem addJacobian_ok {x1 y1 z1 x2 y2 z2 : Bn256} {X₁ Y₁ Z₁ X₂ Y₂ Z₂ : ZMod p} {P Q : curve.Point}
    (hx1 : Fp x1 X₁) (hy1 : Fp y1 Y₁) (hz1 : Fp z1 Z₁) (hx2 : Fp x2 X₂) (hy2 : Fp y2 Y₂) (hz2 : Fp z2 Z₂)
    (hP : JRep P X₁ Y₁ Z₁) (hQ : JRep Q X₂ Y₂ Z₂) :
    ∃ e, addJacobian x1 y1 z1 x2 y2 z2 = .ok e ∧ Rep e (P + Q) := by
  obtain ⟨z1z1, hz1z1, rz1z1⟩ := hz1.mul hz1
  obtain ⟨z2z2, hz2z2, rz2z2⟩ := hz2.mul hz2
  obtain ⟨u1, hu1, ru1⟩ := hx1.mul rz2z2
  obtain ⟨u2, hu2, ru2⟩ := hx2.mul rz1z1
  obtain ⟨z1z1z1, hz1z1z1, rz1z1z1⟩ := rz1z1.mul hz1
  obtain ⟨z2z2z2, hz2z2z2, rz2z2z2⟩ := rz2z2.mul hz2
  obtain ⟨s1, hs1, rs1⟩ := hy1.mul rz2z2z2
  obtain ⟨s2, hs2, rs2⟩ := hy2.mul rz1z1z1
  have rh := ru2.sub ru1
  have rr := rs2.sub rs1
  have hH : X₂ * (Z₁ * Z₁) - X₁ * (Z₂ * Z₂) = X₂ * Z₁ ^ 2 - X₁ * Z₂ ^ 2 := by ring
  have hr : Y₂ * (Z₁ * Z₁ * Z₁) - Y₁ * (Z₂ * Z₂ * Z₂) = Y₂ * Z₁ ^ 3 - Y₁ * Z₂ ^ 3 := by ring
  rw [hH] at rh
  rw [hr] at rr
  simp only [addJacobian, hz1z1, hz2z2, hu1, hu2, hz1z1z1, hz2z2z2, hs1, hs2, ok_bind]
  by_cases hh : bnIsZero (modSub u2 u1 P256_P) = true
  · rw [if_pos hh]
    rw [rh.eq_zero_iff] at hh
    by_cases hrr : bnIsZero (modSub s2 s1 P256_P) = true
    · rw [if_pos hrr]
      rw [rr.eq_zero_iff] at hrr
      rw [← hP.eq_of_scaled hQ hh hrr]
      exact doubleJacobian_ok hx1 hy1 hz1 hP
    · rw [if_neg hrr]
      rw [rr.eq_zero_iff] at hrr
      exact ⟨.infinity, rfl, hP.add_eq_zero hQ hh hrr⟩
  · rw [if_neg hh]
    rw [rh.eq_zero_iff] at hh
    obtain ⟨h2, hh2, rh2⟩ := rh.mul rh
    obtain ⟨h3, hh3, rh3⟩ := rh2.mul rh
    obtain ⟨u1h2, hu1h2, ru1h2⟩ := ru1.mul rh2
    obtain ⟨rr2, hrr2, rrr2⟩ := rr.mul rr
    have rx3 := (rrr2.sub rh3).sub (ru1h2.add ru1h2)
    obtain ⟨tmp, htmp, rtmp⟩ := rr.mul (ru1h2.sub rx3)
    obtain ⟨s1h3, hs1h3, rs1h3⟩ := rs1.mul rh3
    obtain ⟨z1z2, hz1z2, rz1z2⟩ := hz1.mul hz2
    obtain ⟨z3, hz3, rz3⟩ := rz1z2.mul rh
    refine ⟨.jacobian _ _ _, ?_, _, _, _, rx3, rtmp.sub rs1h3, rz3, ?_⟩
    · simp only [hh2, hh3, hu1h2, hrr2, htmp, hs1h3, hz1z2, hz3, ok_bind]
      rfl
    · exact (hP.add hQ rfl rfl hh rfl).of_eq (by ring) (by ring) rfl

theorem pointDouble_ok {e : EcPoint} {P : curve.Point} (h : Rep e P) :
    ∃ e', pointDouble e = .ok e' ∧ Rep e' (P + P) := by
  cases e with
  | infinity => exact ⟨.infinity, rfl, by rw [show P = 0 from h, add_zero]; rfl⟩
  | jacobian x y z =>
    obtain ⟨X, Y, Z, hx, hy, hz, hP⟩ := h
    exact doubleJacobian_ok hx hy hz hP

theorem pointAdd_ok {e f : EcPoint} {P Q : curve.Point} (hP : Rep e P) (hQ : Rep f Q) :
    ∃ e', pointAdd e f = .ok e' ∧ Rep e' (P + Q) := by
  cases e with
  | infinity => exact ⟨f, rfl, by rwa [show P = 0 from hP, zero_add]⟩
  | jacobian x1 y1 z1 =>
    cases f with
    | infinity => exact ⟨.jacobian x1 y1 z1, rfl, by rwa [show Q = 0 from hQ, add_zero]⟩
    | jacobian x2 y2 z2 =>
      obtain ⟨X₁, Y₁, Z₁, hx1, hy1, hz1, h1⟩ := hP
      obtain ⟨X₂, Y₂, Z₂, hx2, hy2, hz2, h2⟩ := hQ
      exact addJacobian_ok hx1 hy1 hz1 hx2 hy2 hz2 h1 h2

/-- `point_scalar_mult` is the binary method in the group of the curve, written additively. -/
theorem pointScalarMult_ok (k : Bn256) {e : EcPoint} {P : curve.Point} (h : Rep e P) :
    ∃ e', pointScalarMult k e = .ok e' ∧ Rep e' (bnVal k.1 • P) := by
  have hbits : bnTestBit k = (bnVal k.1).testBit := funext (bnTestBit_eq k)
  obtain ⟨s, hs, hacc, -⟩ := binaryMethod_ok (M := Multiplicative curve.Point)
    (fun {a b x y} (ha : Rep a x.toAdd) (hb : Rep b y.toAdd) => pointAdd_ok ha hb)
    (fun ha => pointDouble_ok ha) (show Rep .infinity 0 from rfl)
    (show Rep e (Multiplicative.ofAdd P).toAdd from h) (bnVal k.1) 256
  rw [Nat.mod_eq_of_lt (Bn256.lt k)] at hacc
  rw [← hbits] at hs
  refine ⟨s.1, ?_, hacc⟩
  rw [pointScalarMult, show scalarMultStep k = binaryStep pointAdd pointDouble (bnTestBit k) from rfl, hs]
  rfl

theorem rep_fromAffine {x y : Bn256} {X Y : ZMod p} (hx : Fp x X) (hy : Fp y Y) (h : curve.Nonsingular X Y) :
    Rep (pointFromAffine x y) (.some X Y h) :=
  ⟨X, Y, 1, hx, hy, Fp.one, JRep.affine h⟩

/-- `point_to_affine`. -/
theorem pointToAffine_ok {x y z : Bn256} {X Y : ZMod p} {h : curve.Nonsingular X Y}
    (hP : Rep (.jacobian x y z) (.some X Y h)) :
    ∃ o, pointToAffine x y z = .ok o ∧ Fp o.1 X ∧ Fp o.2 Y := by
  obtain ⟨X', Y', Z, hx, hy, hz, hZ, rfl, rfl⟩ := hP
  obtain ⟨zInv, hzInv, rzInv⟩ := Residue.inv val_P256_P (by decide) hz
  obtain ⟨zInv2, hzInv2, rzInv2⟩ := Fp.mul rzInv rzInv
  obtain ⟨zInv3, hzInv3, rzInv3⟩ := rzInv2.mul rzInv
  obtain ⟨outX, hoX, roX⟩ := hx.mul rzInv2
  obtain ⟨outY, hoY, roY⟩ := hy.mul rzInv3
  refine ⟨(outX, outY), ?_, ?_, ?_⟩
  · simp only [pointToAffine, hzInv, hzInv2, hzInv3, hoX, hoY, ok_bind]
    rfl
  · rwa [show X * Z ^ 2 * (Z⁻¹ * Z⁻¹) = X by field_simp] at roX
  · rwa [show Y * Z ^ 3 * (Z⁻¹ * Z⁻¹ * Z⁻¹) = Y by field_simp] at roY

end ND.Proof.P256
