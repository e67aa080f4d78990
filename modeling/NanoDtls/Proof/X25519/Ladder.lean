import NanoDtls.Proof.X25519.Field
import NanoDtls.Spec.X25519
import Mathlib.Data.Nat.Bitwise

/-!
# X25519 is RFC 7748's function

A field element of the code represents a ring element (`Rep`): its limbs are
those a product can have, and their value is the ring element. The ring is any
one in which `2^255 = 19`. Each operation of the ladder keeps this
(`run_ladderStep`, for every multiplication that does), so that the loop
computes the ladder over the ring, and the packed result is the canonical
encoding (`scalarmult_eq`).
-/

namespace ND.Proof.X25519

open ND.Impl ND.Impl.X25519

/-- The exponent that the chain of `fe_inv` computes. -/
theorem inv_exponent : (List.range 254).reverse.foldl (fun e i => 2 * e + if i ≠ 2 ∧ i ≠ 4 then 1 else 0) 1 =
    Spec.X25519.p - 2 := by
  decide +kernel

section Ring

variable {F : Type _} [CommRing F]

/-- Limbs that may be multiplied, of value `v`. -/
structure Loose (l : Fe) (v : F) : Prop where
  bnd : Bnd (2 ^ 17 + 2 ^ 8) l
  cast : ((val l : Int) : F) = v

/-- Limbs that may also be added or subtracted before they are multiplied. -/
structure Rep (l : Fe) (v : F) : Prop where
  red : Reduced l
  cast : ((val l : Int) : F) = v

theorem Rep.loose {l : Fe} {v : F} (h : Rep l v) : Loose l v :=
  ⟨h.red.bnd.mono (by decide), h.cast⟩

theorem rep_add {a b : Fe} {x y : F} (ha : Rep a x) (hb : Rep b y) :
    ∃ o, feAdd a b = .ok o ∧ Loose o (x + y) := by
  obtain ⟨o, ho, hbnd, hv⟩ := feAdd_ok ha.red.bnd hb.red.bnd (by decide)
  exact ⟨o, ho, hbnd.mono (by decide), by rw [hv, Int.cast_add, ha.cast, hb.cast]⟩

theorem rep_sub {a b : Fe} {x y : F} (ha : Rep a x) (hb : Rep b y) :
    ∃ o, feSub a b = .ok o ∧ Loose o (x - y) := by
  obtain ⟨o, ho, hbnd, hv⟩ := feSub_ok ha.red.bnd hb.red.bnd (by decide)
  exact ⟨o, ho, hbnd.mono (by decide), by rw [hv, Int.cast_sub, ha.cast, hb.cast]⟩

variable (hF : (2 : F) ^ 255 = 19)
include hF

/-- `2^256` is worth 38. -/
theorem cast_fold (k : Int) : (((2 ^ 256 - 38) * k : Int) : F) = 0 := by
  have h : (2 : F) ^ 256 = 38 := by rw [pow_succ, hF]; norm_num
  have h0 : ((2 ^ 256 - 38 : Int) : F) = 0 := by
    rw [Int.cast_sub, Int.cast_pow, Int.cast_ofNat, h, Int.cast_ofNat, sub_self]
  rw [Int.cast_mul, h0, zero_mul]

theorem loose_mul {a b : Fe} {x y : F} (ha : Loose a x) (hb : Loose b y) :
    ∃ o, feMul a b = .ok o ∧ Rep o (x * y) := by
  obtain ⟨o, k, ho, hred, hv⟩ := feMul_ok ha.bnd hb.bnd
  exact ⟨o, ho, hred, by rw [hv, Int.cast_sub, cast_fold hF, sub_zero, Int.cast_mul, ha.cast, hb.cast]⟩

omit hF in
/-- Swapping represents swapping. -/
theorem rep_cswap (swap : Bool) {a b : Fe} {x y : F} (ha : Rep a x) (hb : Rep b y) :
    Rep (feCswap swap a b).1 (Spec.X25519.cswap swap x y).1 ∧
      Rep (feCswap swap a b).2 (Spec.X25519.cswap swap x y).2 := by
  rw [feCswap_ok swap ha.red.bnd hb.red.bnd (by decide), Spec.X25519.cswap]
  cases swap with
  | false => exact ⟨ha, hb⟩
  | true => exact ⟨hb, ha⟩

omit hF in
theorem rep_a24 : Loose a24 (121665 : F) where
  bnd := ⟨rfl, by decide⟩
  cast := by rw [show val a24 = 121665 by decide]; norm_num

end Ring

/-! ## Runs over any multiplication -/

/-- The loop variables represent those of the ladder over the ring. -/
structure LadderRep {F : Type _} [CommRing F] (s : Ladder) (σ : Spec.X25519.Ladder F) : Prop where
  x2 : Rep s.x2 σ.x2
  z2 : Rep s.z2 σ.z2
  x3 : Rep s.x3 σ.x3
  z3 : Rep s.z3 σ.z3
  swap : s.swap = σ.swap

section Runs

variable {F : Type _} [CommRing F] {m : Type → Type} [Monad m] [MonadLiftT Result m] (O : Outcome Status m)
  {mul : Fe → Fe → m Fe}
  (hmul : ∀ {a b : Fe} {x y : F}, Loose a x → Loose b y → ∃ o, O.holds (mul a b) o ∧ Rep o (x * y))
include hmul

theorem run_sq {a : Fe} {x : F} (ha : Loose a x) : ∃ o, O.holds (mul a a) o ∧ Rep o (x ^ 2) := by
  rw [pow_two]
  exact hmul ha ha

/-- `fe_inv` raises to the power `p - 2`. -/
theorem run_inv {a : Fe} {x : F} (ha : Rep a x) :
    ∃ o, O.holds (feInvBy mul a) o ∧ Rep o (x ^ (Spec.X25519.p - 2)) := by
  rw [← inv_exponent]
  refine O.foldlM_sim (r := fun c e => Rep c (x ^ e)) _ (by rw [pow_one]; exact ha) fun i _ c e hc => ?_
  obtain ⟨s, hs, hsr⟩ := run_sq O hmul hc.loose
  rw [← pow_mul, Nat.mul_comm] at hsr
  obtain ⟨o, ho, hor⟩ := hmul hsr.loose ha.loose
  unfold invStepBy
  by_cases hi : i ≠ 2 ∧ i ≠ 4
  · refine ⟨o, O.bind hs ?_, ?_⟩
    · rw [if_pos hi]
      exact ho
    · rw [if_pos hi, pow_succ]
      exact hor
  · refine ⟨s, O.bind hs ?_, ?_⟩
    · rw [if_neg hi]
      exact O.pure s
    · rw [if_neg hi, Nat.add_zero]
      exact hsr

/-- A turn of the loop, from the squares of the sum and the difference on. -/
theorem run_ladderRest {x1 x3 z3 A AA B BB : Fe} {u X3 Z3 a b : F} (hu : Rep x1 u) (hx3 : Rep x3 X3) (hz3 : Rep z3 Z3)
    (rA : Loose A a) (rAA : Rep AA (a ^ 2)) (rB : Loose B b) (rBB : Rep BB (b ^ 2)) (kt : Bool) :
    ∃ s', O.holds (ladderRestBy mul x1 x3 z3 A AA B BB kt) s' ∧ LadderRep s'
      ⟨a ^ 2 * b ^ 2, (a ^ 2 - b ^ 2) * (a ^ 2 + 121665 * (a ^ 2 - b ^ 2)), ((X3 - Z3) * a + (X3 + Z3) * b) ^ 2,
        u * ((X3 - Z3) * a - (X3 + Z3) * b) ^ 2, kt⟩ := by
  obtain ⟨E, hE, rE⟩ := rep_sub rAA rBB
  obtain ⟨C, hC, rC⟩ := rep_add hx3 hz3
  obtain ⟨D, hD, rD⟩ := rep_sub hx3 hz3
  obtain ⟨DA, hDA, rDA⟩ := hmul rD rA
  obtain ⟨CB, hCB, rCB⟩ := hmul rC rB
  obtain ⟨S, hS, rS⟩ := rep_add rDA rCB
  obtain ⟨x3', hx3', rx3⟩ := run_sq O hmul rS
  obtain ⟨T, hT, rT⟩ := rep_sub rDA rCB
  obtain ⟨TT, hTT, rTT⟩ := run_sq O hmul rT
  obtain ⟨z3', hz3', rz3⟩ := hmul hu.loose rTT.loose
  obtain ⟨x2', hx2', rx2⟩ := hmul rAA.loose rBB.loose
  obtain ⟨G, hG, rG⟩ := hmul rE rep_a24
  obtain ⟨H, hH, rH⟩ := rep_add rAA rG
  obtain ⟨z2', hz2', rz2⟩ := hmul rE rH
  refine ⟨⟨x2', z2', x3', z3', kt⟩, ?_, rx2, ?_, rx3, rz3, rfl⟩
  · exact O.bind (O.lift hE) <| O.bind (O.lift hC) <| O.bind (O.lift hD) <| O.bind hDA <| O.bind hCB <|
      O.bind (O.lift hS) <| O.bind hx3' <| O.bind (O.lift hT) <| O.bind hTT <| O.bind hz3' <| O.bind hx2' <| O.bind hG <|
      O.bind (O.lift hH) <| O.bind hz2' <| O.pure _
  · rw [mul_comm (121665 : F)]
    exact rz2

/-- One turn of the loop. -/
theorem run_ladderStep {x1 : Fe} {u : F} (hu : Rep x1 u) {k : Bytes} {n t : Nat}
    (hk : (k.getD (t / 8) 0).getLsbD (t % 8) = n.testBit t) {s : Ladder} {σ : Spec.X25519.Ladder F}
    (h : LadderRep s σ) :
    ∃ s', O.holds (ladderStepBy mul x1 k s t) s' ∧ LadderRep s' (Spec.X25519.ladderStep u n σ t) := by
  simp only [ladderStepBy, Spec.X25519.ladderStep, hk, h.swap]
  generalize (σ.swap ^^ n.testBit t) = swap
  obtain ⟨hx2, hx3⟩ := rep_cswap swap h.x2 h.x3
  obtain ⟨hz2, hz3⟩ := rep_cswap swap h.z2 h.z3
  obtain ⟨A, hA, rA⟩ := rep_add hx2 hz2
  obtain ⟨AA, hAA, rAA⟩ := run_sq O hmul rA
  obtain ⟨B, hB, rB⟩ := rep_sub hx2 hz2
  obtain ⟨BB, hBB, rBB⟩ := run_sq O hmul rB
  obtain ⟨s', hs', hrep⟩ := run_ladderRest O hmul hu hx3 hz3 rA rAA rB rBB (n.testBit t)
  exact ⟨s', O.bind (O.lift hA) <| O.bind hAA <| O.bind (O.lift hB) <| O.bind hBB hs', hrep⟩

end Runs

/-! ## The scalar -/

/-- The bits of a byte string, as the ladder reads them. -/
theorem getLsbD_getD : ∀ (l : Bytes) (t : Nat), (l.getD (t / 8) 0).getLsbD (t % 8) = (leNat l).testBit t
  | [], t => by simp [leNat]
  | b :: l, t => by
    have hb := b.isLt
    rw [leNat, Nat.add_comm, show 256 = 2 ^ 8 from rfl, Nat.testBit_two_pow_mul_add _ hb]
    by_cases ht : t < 8
    · rw [if_pos ht, Nat.div_eq_of_lt ht, Nat.mod_eq_of_lt ht, List.getD_cons_zero]
      rfl
    · rw [if_neg ht, ← getLsbD_getD l (t - 8), show t / 8 = (t - 8) / 8 + 1 by omega, List.getD_cons_succ,
        show (t - 8) % 8 = t % 8 by omega]

theorem clamp_low : ∀ b : Byte, (b &&& 248).toNat = b.toNat - b.toNat % 8 := by decide

theorem clamp_high : ∀ b : Byte, ((b &&& 127) ||| 64).toNat = 64 + b.toNat % 64 := by decide

/-- Clamping the bytes clamps the number. -/
theorem leNat_clamp (k : BytesN 32) : leNat (clamp k) = Spec.X25519.decodeScalar25519 k := by
  obtain ⟨k, hk⟩ := k
  obtain ⟨b0, l, rfl⟩ := List.exists_cons_of_length_eq_add_one hk
  obtain ⟨m, b31, rfl⟩ : ∃ m b31, l = m ++ [b31] :=
    ⟨l.dropLast, l.getLast (by rintro rfl; simp at hk), (List.dropLast_append_getLast _).symm⟩
  have hm : m.length = 30 := by simpa using hk
  have hc : clamp ⟨b0 :: (m ++ [b31]), hk⟩ = (b0 &&& 248) :: (m ++ [(b31 &&& 127) ||| 64]) := by
    simp only [clamp, List.getD_cons_zero, List.set_cons_zero, List.set_cons_succ, List.getD_cons_succ]
    rw [List.getD_append_right _ _ _ _ (by omega), List.set_append_right _ _ (by omega), hm]
    rfl
  have hl := leNat_lt m
  have h0 := b0.isLt
  have h31 := b31.isLt
  simp only [hc, Spec.X25519.decodeScalar25519, leNat, leNat_append, clamp_low, clamp_high, hm] at hl ⊢
  generalize leNat m = M at hl ⊢
  omega

/-! ## The function -/

theorem two_pow_255 : (2 : ZMod Spec.X25519.p) ^ 255 = 19 := by
  have h := (ZMod.natCast_eq_natCast_iff (2 ^ 255) 19 Spec.X25519.p).mpr (by decide)
  rw [Nat.cast_pow, Nat.cast_ofNat, Nat.cast_ofNat] at h
  exact h

/-- The packed limbs are the canonical encoding of the ring element they represent. -/
theorem pack_rep {l : Fe} {v : ZMod Spec.X25519.p} (h : Rep l v) :
    fePack l = .ok ⟨leBytes 32 v.val, by simp⟩ := by
  obtain ⟨b, hb, hv⟩ := fePack_ok h.red
  rw [hb]
  congr 1
  refine Subtype.ext (hv.trans ?_)
  have hval := ZMod.val_intCast (n := Spec.X25519.p) (val l)
  rw [h.cast] at hval
  rw [show ((2 : Int) ^ 255 - 19) = (Spec.X25519.p : Nat) by decide, ← hval, Int.toNat_natCast]

theorem rep_one : Rep feOne (1 : ZMod Spec.X25519.p) :=
  ⟨⟨rfl, by decide, by unfold Digits; decide⟩, by rw [show val feOne = 1 by decide, Int.cast_one]⟩

theorem rep_zero : Rep feZero (0 : ZMod Spec.X25519.p) :=
  ⟨⟨rfl, by decide, by unfold Digits; decide⟩, by rw [show val feZero = 0 by decide, Int.cast_zero]⟩

theorem rep_unpack (uIn : BytesN 32) : Rep (feUnpack uIn) (Spec.X25519.decodeUCoordinate uIn) := by
  obtain ⟨hred, hval⟩ := feUnpack_ok uIn
  exact ⟨hred.reduced, by rw [hval, Int.cast_natCast]; rfl⟩

section Function

variable {m : Type → Type} [Monad m] [MonadLiftT Result m] (O : Outcome Status m) {mul : Fe → Fe → m Fe}
  {pack : Fe → m (BytesN 32)}
  (hmul : ∀ {a b : Fe} {x y : ZMod Spec.X25519.p}, Loose a x → Loose b y → ∃ o, O.holds (mul a b) o ∧ Rep o (x * y))
include hmul

/-- The loop, from any loop variables on. -/
theorem run_ladder (scalar uIn : BytesN 32) (ts : List Nat) {s : Ladder} {σ : Spec.X25519.Ladder (ZMod Spec.X25519.p)}
    (h : LadderRep s σ) : ∃ s', O.holds (ts.foldlM (ladderStepBy mul (feUnpack uIn) (clamp scalar)) s) s' ∧
      LadderRep s' (ts.foldl (Spec.X25519.ladderStep (Spec.X25519.decodeUCoordinate uIn)
        (Spec.X25519.decodeScalar25519 scalar)) σ) :=
  O.foldlM_sim ts h fun _ _ _ _ hσ =>
    run_ladderStep O hmul (rep_unpack uIn) (by rw [getLsbD_getD, leNat_clamp]) hσ

/-- What comes after the loop. -/
theorem run_result (hpack : ∀ {l : Fe} {v : ZMod Spec.X25519.p}, Rep l v → O.holds (pack l) ⟨leBytes 32 v.val, by simp⟩)
    {s : Ladder} {σ : Spec.X25519.Ladder (ZMod Spec.X25519.p)} (h : LadderRep s σ) :
    O.holds (feInvBy mul (feCswap s.swap s.z2 s.z3).1 >>= fun z2Inv => mul (feCswap s.swap s.x2 s.x3).1 z2Inv >>= pack)
      ⟨leBytes 32 ((Spec.X25519.cswap σ.swap σ.x2 σ.x3).1 *
        (Spec.X25519.cswap σ.swap σ.z2 σ.z3).1 ^ (Spec.X25519.p - 2)).val, by simp⟩ := by
  have hx := (rep_cswap s.swap h.x2 h.x3).1
  have hz := (rep_cswap s.swap h.z2 h.z3).1
  rw [h.swap] at hx hz ⊢
  obtain ⟨zi, hzi, rzi⟩ := run_inv O hmul hz
  obtain ⟨o, ho, ro⟩ := hmul hx.loose rzi.loose
  exact O.bind hzi (O.bind ho (hpack ro))

theorem run_scalarmult (hpack : ∀ {l : Fe} {v : ZMod Spec.X25519.p}, Rep l v → O.holds (pack l) ⟨leBytes 32 v.val, by simp⟩)
    (scalar uIn : BytesN 32) : O.holds (scalarmultBy mul pack scalar uIn) (Spec.X25519.x25519 scalar uIn) := by
  obtain ⟨s, hs, hrep⟩ := run_ladder O hmul scalar uIn (List.range 255).reverse
    (s := ⟨feOne, feZero, feUnpack uIn, feOne, false⟩) (σ := ⟨1, 0, Spec.X25519.decodeUCoordinate uIn, 1, false⟩)
    ⟨rep_one, rep_zero, rep_unpack uIn, rep_one, rfl⟩
  change LadderRep s (Spec.X25519.ladderRun _ _) at hrep
  simp only [Spec.X25519.x25519, Spec.X25519.ladder]
  exact O.bind hs (run_result O hmul hpack hrep)

end Function

theorem scalarmult_eq (scalar uIn : BytesN 32) :
    x25519Scalarmult scalar uIn = .ok (Spec.X25519.x25519 scalar uIn) := by
  rw [← scalarmultBy_feMul]
  exact run_scalarmult Outcome.ok (loose_mul two_pow_255) pack_rep scalar uIn

/-- `nd_x25519_scalarmult` is RFC 7748's X25519: on every scalar and every coordinate, reduced or
not, no `int64_t` operation overflows (that would be the error `ub`), and the output is the
encoding below the prime of `x_2 * z_2^(p - 2)` at the end of the ladder over the field. -/
theorem scalarmult_rfc7748 (scalar uIn : BytesN 32) :
    ∃ out : BytesN 32, x25519Scalarmult scalar uIn = .ok out ∧ leNat out.1 < Spec.X25519.p ∧
      ((leNat out.1 : Nat) : ZMod Spec.X25519.p) =
        (Spec.X25519.ladder (Spec.X25519.decodeScalar25519 scalar) (Spec.X25519.decodeUCoordinate uIn)).1 *
          (Spec.X25519.ladder (Spec.X25519.decodeScalar25519 scalar) (Spec.X25519.decodeUCoordinate uIn)).2 ^
            (Spec.X25519.p - 2) := by
  refine ⟨_, scalarmult_eq scalar uIn, ?_⟩
  simp only [Spec.X25519.x25519, leNat_leBytes]
  generalize (Spec.X25519.ladder (F := ZMod Spec.X25519.p) _ _).1 * _ = v
  have hlt := ZMod.val_lt v
  rw [Nat.mod_eq_of_lt (hlt.trans (by decide))]
  exact ⟨hlt, ZMod.natCast_zmod_val v⟩

end ND.Proof.X25519
