import NanoDtls.Proof.P256.Points

/-!
# Modular arithmetic on all operands

`Residue` is about reduced operands. `mod_mul` and `mod_inv` are right on all
bignums: a product is reduced by the long division whatever its factors were,
and of a power only the class of the base matters (`modInv_mul`). The
remainder of the long division stays below the modulus in every turn, and as
both moduli are above `2^255`, `mod_reduce_once` subtracts at most once.
-/

namespace ND.Proof.P256

open ND.Impl ND.Impl.P256
open ND.Spec.Ecdsa (p n)

/-- The moduli of the curve. -/
structure Modulus (m : Bn256) : Prop where
  prime : (bnVal m.1).Prime
  large : 2 ^ 255 < bnVal m.1

theorem modulus_of {m : Bn256} (h : m = P256_P ∨ m = P256_N) : Modulus m := by
  rcases h with rfl | rfl
  · exact ⟨by rw [val_P256_P]; exact Fact.out, by decide⟩
  · exact ⟨by rw [val_P256_N]; exact Fact.out, by decide⟩

/-- `mod_sub` of reduced values, as a difference of integers. -/
theorem modSub_emod {a b m : Bn256} (ha : bnVal a.1 < bnVal m.1) (hb : bnVal b.1 < bnVal m.1) :
    (bnVal (modSub a b m).1 : ℤ) = ((bnVal a.1 : ℤ) - bnVal b.1) % bnVal m.1 := by
  rw [modSub_val ha hb, Int.natCast_mod, Nat.cast_sub (by omega), Nat.cast_add, add_sub_right_comm, Int.add_emod_right]

section Modulus

variable {m : Bn256} (hm : Modulus m)
include hm

theorem Modulus.pos : 0 < bnVal m.1 := hm.prime.pos

/-- `mod_pow` of a base that need not be reduced. -/
theorem modPow_cast (a e : Bn256) :
    ∃ o, modPow a e m = .ok o ∧ (bnVal o.1 : ZMod (bnVal m.1)) = (bnVal a.1 : ZMod (bnVal m.1)) ^ bnVal e.1 := by
  have hmul {a b : Bn256} {x y : ZMod (bnVal m.1)} (ha : (bnVal a.1 : ZMod (bnVal m.1)) = x)
      (hb : (bnVal b.1 : ZMod (bnVal m.1)) = y) : ∃ o, modMul a b m = .ok o ∧ (bnVal o.1 : ZMod (bnVal m.1)) = x * y := by
    obtain ⟨o, ho, hval⟩ := modMul_ok a b hm.pos
    exact ⟨o, ho, by rw [hval, ZMod.natCast_mod, Nat.cast_mul, ha, hb]⟩
  have hbits : bnTestBit e = (bnVal e.1).testBit := funext (bnTestBit_eq e)
  obtain ⟨s, hs, hacc, -⟩ := binaryMethod_ok hmul (fun h => hmul h h) (show (bnVal (bnOfLimb 1).1 : ZMod (bnVal m.1)) = 1 from
    Nat.cast_one) (rfl : (bnVal a.1 : ZMod (bnVal m.1)) = _) (bnVal e.1) 256
  rw [Nat.mod_eq_of_lt (Bn256.lt e)] at hacc
  rw [← hbits] at hs
  refine ⟨s.1, ?_, hacc⟩
  rw [modPow, show powStep e m = binaryStep (modMul · · m) (fun b => modMul b b m) (bnTestBit e) from rfl, hs]
  rfl

theorem modInv_mul {a : Bn256} (ha : ¬ bnVal m.1 ∣ bnVal a.1) :
    ∃ o, modInv a m = .ok o ∧ bnVal o.1 * bnVal a.1 % bnVal m.1 = 1 := by
  have := Fact.mk hm.prime
  have h2 : 2 < bnVal m.1 := Nat.lt_trans (by decide) hm.large
  obtain ⟨o, ho, hpow⟩ := modPow_cast hm a (bnSubRaw m (bnOfLimb 2)).1
  rw [bnVal_sub_two rfl h2] at hpow
  have hx : (bnVal a.1 : ZMod (bnVal m.1)) ≠ 0 := by rwa [ne_eq, ZMod.natCast_eq_zero_iff]
  have hone : ((bnVal o.1 * bnVal a.1 : ℕ) : ZMod (bnVal m.1)) = (1 : ℕ) := by
    rw [Nat.cast_mul, hpow, ← pow_succ, show bnVal m.1 - 2 + 1 = bnVal m.1 - 1 by omega, ZMod.pow_card_sub_one_eq_one hx,
      Nat.cast_one]
  rw [ZMod.natCast_eq_natCast_iff'] at hone
  exact ⟨o, ho, hone.trans (Nat.mod_eq_of_lt hm.prime.one_lt)⟩

/-- The remainder after each turn of `mod_reduce_wide`. -/
theorem foldl_reduceStep_lt {wide : List Limb} (hlen : wide.length = 16) {j : Nat} (hj : j ≤ 512) :
    bnVal (((List.range 512).reverse.take j).foldl (reduceStep wide m) (List.replicate 9 0)) < bnVal m.1 := by
  rw [foldl_reduceStep_val wide hm.pos (bnVal_wide_lt hlen) j hj]
  exact Nat.mod_lt _ hm.pos

/-- Two tests of the loop of `mod_reduce_once`, with one subtraction between them. -/
theorem reduceOnceLoop_two (a : Bn256) :
    ∃ o, reduceOnceLoop m 2 a = .ok o ∧ modReduceOnce a m = .ok o ∧ bnVal o.1 = bnVal a.1 % bnVal m.1 := by
  have hlt := Bn256.lt a
  have hlarge := hm.large
  obtain ⟨o, ho, hval⟩ := reduceOnceLoop_ok hm.pos 2 a (by omega)
  obtain ⟨o', ho', hval'⟩ := modReduceOnce_ok a hm.pos
  have heq : o' = o := Bn256.ext (hval'.trans hval.symm)
  exact ⟨o, ho, heq ▸ ho', hval⟩

end Modulus

/-- The arithmetic modulo `p` and `n`: the product of any two bignums without leaving the array, its reduction with the
remainder below the modulus in every turn, sums and differences of reduced operands, the inverse of every bignum that
the modulus does not divide, and the reduction of a bignum with at most one subtraction. -/
theorem modular_arithmetic_exact {m : Bn256} (h : m = P256_P ∨ m = P256_N) :
    (∀ a b : Bn256, ∃ wide, bnMulWide a b = .ok wide ∧ wide.length = 16 ∧ bnVal wide = bnVal a.1 * bnVal b.1) ∧
    (∀ wide : List Limb, wide.length = 16 → bnVal (modReduceWide wide m).1 = bnVal wide % bnVal m.1 ∧ ∀ j ≤ 512,
      let rem := ((List.range 512).reverse.take j).foldl (reduceStep wide m) (List.replicate 9 0)
      rem.length = 9 ∧ bnVal rem < bnVal m.1) ∧
    (∀ a b : Bn256, ∃ o, modMul a b m = .ok o ∧ bnVal o.1 = bnVal a.1 * bnVal b.1 % bnVal m.1 ∧
      bnVal o.1 < bnVal m.1) ∧
    (∀ a b : Bn256, bnVal a.1 < bnVal m.1 → bnVal b.1 < bnVal m.1 →
      bnVal (modAdd a b m).1 = (bnVal a.1 + bnVal b.1) % bnVal m.1 ∧
      (bnVal (modSub a b m).1 : ℤ) = ((bnVal a.1 : ℤ) - bnVal b.1) % bnVal m.1) ∧
    (∀ a : Bn256, ¬ bnVal m.1 ∣ bnVal a.1 →
      ∃ o, modInv a m = .ok o ∧ bnVal o.1 * bnVal a.1 % bnVal m.1 = 1) ∧
    ∀ a : Bn256, ∃ o, reduceOnceLoop m 2 a = .ok o ∧ modReduceOnce a m = .ok o ∧ bnVal o.1 = bnVal a.1 % bnVal m.1 := by
  have hm := modulus_of h
  refine ⟨bnMulWide_ok, ?_, ?_, ?_, ?_, reduceOnceLoop_two hm⟩
  · intro wide hlen
    refine ⟨modReduceWide_val hlen hm.pos, fun j hj => ⟨?_, foldl_reduceStep_lt hm hlen hj⟩⟩
    exact length_foldl_reduceStep wide m _ _ List.length_replicate
  · intro a b
    obtain ⟨o, ho, hval⟩ := modMul_ok a b hm.pos
    exact ⟨o, ho, hval, hval ▸ Nat.mod_lt _ hm.pos⟩
  · intro a b ha hb
    exact ⟨modAdd_val ha hb, modSub_emod ha hb⟩
  · intro a ha
    exact modInv_mul hm ha

/-- An operand above both moduli: all limbs are filled. -/
theorem modular_arithmetic_exact_max :
    let max : Bn256 := ⟨List.replicate 8 0xffffffff, rfl⟩
    (∃ o, modInv max P256_P = .ok o ∧ bnVal o.1 * (2 ^ 256 - 1) % p = 1) ∧
    ∃ o, modReduceOnce max P256_N = .ok o ∧ bnVal o.1 = 2 ^ 256 - 1 - n := by
  intro max
  have hp := modular_arithmetic_exact (Or.inl rfl : P256_P = P256_P ∨ P256_P = P256_N)
  have hn := modular_arithmetic_exact (Or.inr rfl : P256_N = P256_P ∨ P256_N = P256_N)
  obtain ⟨o, ho, hval⟩ := hp.2.2.2.2.1 max (by decide)
  obtain ⟨o', -, ho', hval'⟩ := hn.2.2.2.2.2 max
  exact ⟨⟨o, ho, hval⟩, o', ho', hval'.trans (by decide)⟩

end ND.Proof.P256
