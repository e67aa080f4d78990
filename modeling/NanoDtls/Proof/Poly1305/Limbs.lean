import NanoDtls.Framework.Limbs
import NanoDtls.Framework.Words
import NanoDtls.Impl.Aead
import NanoDtls.Spec.Poly1305

/-!
# Poly1305 in limbs

The arithmetic of `poly1305.c` on five limbs of radix `2^26`. The
computation is written over `Words` (`mulmodIn`, `absorbIn`, `carryPassIn`),
where it is the one of the model if results wrap around; from limbs that are
reduced (`Reduced`) no result has to. A block multiplies the accumulator by
`r` modulo `p` (`absorb_step`).
-/

namespace ND.Proof.Poly1305

open ND.Impl ND.Impl.Poly1305
open Spec.Poly1305 (p)

theorem neZero_four : NeZero 4 := ⟨by decide⟩

-- the indices of `s`
attribute [local instance] neZero_four

/-! ## The computation over any words -/

section Words

variable {m : Type → Type} [Monad m] (W : Words m)

/-- The carries of `poly1305_mulmod`. -/
def carryIn (d0 d1 d2 d3 d4 : Nat) : m Limbs := do
  let d1 ← W.u64 (d1 + d0 / 2 ^ 26)
  let d2 ← W.u64 (d2 + d1 / 2 ^ 26)
  let d3 ← W.u64 (d3 + d2 / 2 ^ 26)
  let d4 ← W.u64 (d4 + d3 / 2 ^ 26)
  let fold ← W.u64 (d4 / 2 ^ 26 * 5)
  let fold ← W.u32 fold
  let h0 ← W.u32 (d0 % 2 ^ 26 + fold)
  let h1 ← W.u32 (d1 % 2 ^ 26 + h0 / 2 ^ 26)
  return { l0 := h0 % 2 ^ 26, l1 := h1, l2 := d2 % 2 ^ 26, l3 := d3 % 2 ^ 26, l4 := d4 % 2 ^ 26 }

/-- `poly1305_mulmod`. A sum of products fits if all its parts do. -/
def mulmodIn (h r : Limbs) (s : Fin 4 → Nat) : m Limbs := do
  let d0 ← W.u64 (h.l0 * r.l0 + h.l1 * s 3 + h.l2 * s 2 + h.l3 * s 1 + h.l4 * s 0)
  let d1 ← W.u64 (h.l0 * r.l1 + h.l1 * r.l0 + h.l2 * s 3 + h.l3 * s 2 + h.l4 * s 1)
  let d2 ← W.u64 (h.l0 * r.l2 + h.l1 * r.l1 + h.l2 * r.l0 + h.l3 * s 3 + h.l4 * s 2)
  let d3 ← W.u64 (h.l0 * r.l3 + h.l1 * r.l2 + h.l2 * r.l1 + h.l3 * r.l0 + h.l4 * s 3)
  let d4 ← W.u64 (h.l0 * r.l4 + h.l1 * r.l3 + h.l2 * r.l2 + h.l3 * r.l1 + h.l4 * r.l0)
  carryIn W d0 d1 d2 d3 d4

/-- A block added to `h`, then the multiplication. -/
def absorbIn (ctx : Poly1305Ctx) (block17 : Bytes) : m Poly1305Ctx := do
  let t := bytesToLimbs block17
  let h0 ← W.u32 (ctx.h.l0 + t.l0)
  let h1 ← W.u32 (ctx.h.l1 + t.l1)
  let h2 ← W.u32 (ctx.h.l2 + t.l2)
  let h3 ← W.u32 (ctx.h.l3 + t.l3)
  let h4 ← W.u32 (ctx.h.l4 + t.l4)
  let h ← mulmodIn W ⟨h0, h1, h2, h3, h4⟩ ctx.r ctx.s
  return { ctx with h := h }

/-- The last carry pass of `nd_poly1305_final`. -/
def carryPassIn (h : Limbs) : m Limbs := do
  let h2 ← W.u32 (h.l2 + h.l1 / 2 ^ 26)
  let h3 ← W.u32 (h.l3 + h2 / 2 ^ 26)
  let h4 ← W.u32 (h.l4 + h3 / 2 ^ 26)
  let h0 ← W.u32 (h.l0 + h4 / 2 ^ 26 * 5)
  let h1 ← W.u32 (h.l1 % 2 ^ 26 + h0 / 2 ^ 26)
  let h2 ← W.u32 (h2 % 2 ^ 26 + h1 / 2 ^ 26)
  return ⟨h0 % 2 ^ 26, h1 % 2 ^ 26, h2, h3 % 2 ^ 26, h4 % 2 ^ 26⟩

end Words

theorem absorbIn_wrapping (ctx : Poly1305Ctx) (block17 : Bytes) : absorbIn Words.wrapping ctx block17 = absorb ctx block17 := rfl

theorem carryPassIn_wrapping (h : Limbs) : carryPassIn Words.wrapping h = carryPass h := rfl

/-! ## Values and bounds -/

/-- The number that the limbs stand for. -/
def val (h : Limbs) : Nat := h.l0 + 2 ^ 26 * h.l1 + 2 ^ 52 * h.l2 + 2 ^ 78 * h.l3 + 2 ^ 104 * h.l4

/-- Every limb has 26 bits. -/
structure Canonical (h : Limbs) : Prop where
  l0 : h.l0 < 2 ^ 26
  l1 : h.l1 < 2 ^ 26
  l2 : h.l2 < 2 ^ 26
  l3 : h.l3 < 2 ^ 26
  l4 : h.l4 < 2 ^ 26

/-- The accumulator between two blocks: the second limb may have taken up a last carry. -/
structure Reduced (h : Limbs) : Prop where
  l0 : h.l0 < 2 ^ 26
  l1 : h.l1 < 2 ^ 26 + 64
  l2 : h.l2 < 2 ^ 26
  l3 : h.l3 < 2 ^ 26
  l4 : h.l4 < 2 ^ 26

/-- The limbs of `r`, and `s` five times those above the lowest. -/
structure KeyLimbs (r : Limbs) (s : Fin 4 → Nat) : Prop where
  canonical : Canonical r
  s0 : s 0 = 5 * r.l1
  s1 : s 1 = 5 * r.l2
  s2 : s 2 = 5 * r.l3
  s3 : s 3 = 5 * r.l4

/-- What a block of limbs added to a reduced accumulator is bounded by. -/
def Sum (h : Limbs) : Prop :=
  h.l0 ≤ 2 ^ 27 + 64 ∧ h.l1 ≤ 2 ^ 27 + 64 ∧ h.l2 ≤ 2 ^ 27 + 64 ∧ h.l3 ≤ 2 ^ 27 + 64 ∧ h.l4 ≤ 2 ^ 27 + 64

theorem column_le {A B a b c d e a' b' c' d' e' : Nat} (ha : a ≤ A) (hb : b ≤ A) (hc : c ≤ A) (hd : d ≤ A) (he : e ≤ A)
    (ha' : a' ≤ B) (hb' : b' ≤ B) (hc' : c' ≤ B) (hd' : d' ≤ B) (he' : e' ≤ B) :
    a * a' + b * b' + c * c' + d * d' + e * e' ≤ 5 * (A * B) := by
  have h1 := Nat.mul_le_mul ha ha'
  have h2 := Nat.mul_le_mul hb hb'
  have h3 := Nat.mul_le_mul hc hc'
  have h4 := Nat.mul_le_mul hd hd'
  have h5 := Nat.mul_le_mul he he'
  omega

/-- The carries of a column sum, and the fold of what is above `2^130`. -/
def carried (d0 d1 d2 d3 d4 : Nat) : Limbs :=
  let c1 := d1 + d0 / 2 ^ 26
  let c2 := d2 + c1 / 2 ^ 26
  let c3 := d3 + c2 / 2 ^ 26
  let c4 := d4 + c3 / 2 ^ 26
  let h0 := d0 % 2 ^ 26 + c4 / 2 ^ 26 * 5
  ⟨h0 % 2 ^ 26, c1 % 2 ^ 26 + h0 / 2 ^ 26, c2 % 2 ^ 26, c3 % 2 ^ 26, c4 % 2 ^ 26⟩

/-- The carries keep the value modulo `p`. -/
theorem val_carried (d0 d1 d2 d3 d4 : Nat) :
    ∃ q, val (carried d0 d1 d2 d3 d4) + p * q = d0 + 2 ^ 26 * d1 + 2 ^ 52 * d2 + 2 ^ 78 * d3 + 2 ^ 104 * d4 := by
  refine ⟨(d4 + (d3 + (d2 + (d1 + d0 / 2 ^ 26) / 2 ^ 26) / 2 ^ 26) / 2 ^ 26) / 2 ^ 26, ?_⟩
  simp only [val, carried, p]
  omega

theorem carried_reduced {d0 d1 d2 d3 d4 : Nat} (h0 : d0 ≤ 2 ^ 58) (h1 : d1 ≤ 2 ^ 58) (h2 : d2 ≤ 2 ^ 58) (h3 : d3 ≤ 2 ^ 58)
    (h4 : d4 ≤ 5 * (2 ^ 53 + 2 ^ 32)) : Reduced (carried d0 d1 d2 d3 d4) := by
  simp only [carried]
  constructor <;> dsimp only <;> omega

section

variable {h r : Limbs} {s : Fin 4 → Nat}

/-- The columns of the product are small enough for the carries. -/
theorem columns_le (hh : Sum h) (hr : KeyLimbs r s) :
    h.l0 * r.l0 + h.l1 * s 3 + h.l2 * s 2 + h.l3 * s 1 + h.l4 * s 0 ≤ 2 ^ 58 ∧
    h.l0 * r.l1 + h.l1 * r.l0 + h.l2 * s 3 + h.l3 * s 2 + h.l4 * s 1 ≤ 2 ^ 58 ∧
    h.l0 * r.l2 + h.l1 * r.l1 + h.l2 * r.l0 + h.l3 * s 3 + h.l4 * s 2 ≤ 2 ^ 58 ∧
    h.l0 * r.l3 + h.l1 * r.l2 + h.l2 * r.l1 + h.l3 * r.l0 + h.l4 * s 3 ≤ 2 ^ 58 ∧
    h.l0 * r.l4 + h.l1 * r.l3 + h.l2 * r.l2 + h.l3 * r.l1 + h.l4 * r.l0 ≤ 5 * (2 ^ 53 + 2 ^ 32) := by
  obtain ⟨h0, h1, h2, h3, h4⟩ := hh
  obtain ⟨⟨r0, r1, r2, r3, r4⟩, s0, s1, s2, s3⟩ := hr
  have hs : s 0 ≤ 5 * 2 ^ 26 ∧ s 1 ≤ 5 * 2 ^ 26 ∧ s 2 ≤ 5 * 2 ^ 26 ∧ s 3 ≤ 5 * 2 ^ 26 := by omega
  have hwide : 5 * ((2 ^ 27 + 64) * (5 * 2 ^ 26)) ≤ 2 ^ 58 := by decide
  obtain ⟨hs0, hs1, hs2, hs3⟩ := hs
  refine ⟨Nat.le_trans (column_le h0 h1 h2 h3 h4 ?_ hs3 hs2 hs1 hs0) hwide,
    Nat.le_trans (column_le h0 h1 h2 h3 h4 ?_ ?_ hs3 hs2 hs1) hwide,
    Nat.le_trans (column_le h0 h1 h2 h3 h4 ?_ ?_ ?_ hs3 hs2) hwide,
    Nat.le_trans (column_le h0 h1 h2 h3 h4 ?_ ?_ ?_ ?_ hs3) hwide,
    Nat.le_trans (column_le (B := 2 ^ 26) h0 h1 h2 h3 h4 ?_ ?_ ?_ ?_ ?_) (by decide)⟩
  all_goals omega

/-- The carries are exact in a lawful arithmetic. -/
theorem carryIn_eq {m : Type → Type} [Monad m] [LawfulMonad m] {W : Words m} (hW : W.Lawful) {d0 d1 d2 d3 d4 : Nat}
    (h0 : d0 ≤ 2 ^ 58) (h1 : d1 ≤ 2 ^ 58) (h2 : d2 ≤ 2 ^ 58) (h3 : d3 ≤ 2 ^ 58) (h4 : d4 ≤ 5 * (2 ^ 53 + 2 ^ 32)) :
    carryIn W d0 d1 d2 d3 d4 = pure (carried d0 d1 d2 d3 d4) := by
  rw [carryIn, hW.u64 (by omega), pure_bind, hW.u64 (by omega), pure_bind, hW.u64 (by omega), pure_bind, hW.u64 (by omega),
    pure_bind, hW.u64 (by omega), pure_bind, hW.u32 (by omega), pure_bind, hW.u32 (by omega), pure_bind, hW.u32 (by omega),
    pure_bind]
  rfl

/-- The columns of the product. -/
def product (h r : Limbs) (s : Fin 4 → Nat) : Limbs :=
  carried (h.l0 * r.l0 + h.l1 * s 3 + h.l2 * s 2 + h.l3 * s 1 + h.l4 * s 0)
    (h.l0 * r.l1 + h.l1 * r.l0 + h.l2 * s 3 + h.l3 * s 2 + h.l4 * s 1)
    (h.l0 * r.l2 + h.l1 * r.l1 + h.l2 * r.l0 + h.l3 * s 3 + h.l4 * s 2)
    (h.l0 * r.l3 + h.l1 * r.l2 + h.l2 * r.l1 + h.l3 * r.l0 + h.l4 * s 3)
    (h.l0 * r.l4 + h.l1 * r.l3 + h.l2 * r.l2 + h.l3 * r.l1 + h.l4 * r.l0)

theorem mulmodIn_eq_product {m : Type → Type} [Monad m] [LawfulMonad m] {W : Words m} (hW : W.Lawful) (hh : Sum h)
    (hr : KeyLimbs r s) : mulmodIn W h r s = pure (product h r s) := by
  obtain ⟨hd0, hd1, hd2, hd3, hd4⟩ := columns_le hh hr
  rw [mulmodIn, hW.u64 (by omega), pure_bind, hW.u64 (by omega), pure_bind, hW.u64 (by omega), pure_bind, hW.u64 (by omega),
    pure_bind, hW.u64 (by omega), pure_bind, carryIn_eq hW hd0 hd1 hd2 hd3 hd4, product]

theorem product_reduced (hh : Sum h) (hr : KeyLimbs r s) : Reduced (product h r s) := by
  obtain ⟨hd0, hd1, hd2, hd3, hd4⟩ := columns_le hh hr
  exact carried_reduced hd0 hd1 hd2 hd3 hd4

/-- The product modulo `p`: what is above `2^130` comes back five times. -/
theorem val_product (hr : KeyLimbs r s) : val (product h r s) ≡ val h * val r [MOD p] := by
  obtain ⟨_, s0, s1, s2, s3⟩ := hr
  obtain ⟨q, hq⟩ := val_carried (h.l0 * r.l0 + h.l1 * s 3 + h.l2 * s 2 + h.l3 * s 1 + h.l4 * s 0)
    (h.l0 * r.l1 + h.l1 * r.l0 + h.l2 * s 3 + h.l3 * s 2 + h.l4 * s 1)
    (h.l0 * r.l2 + h.l1 * r.l1 + h.l2 * r.l0 + h.l3 * s 3 + h.l4 * s 2)
    (h.l0 * r.l3 + h.l1 * r.l2 + h.l2 * r.l1 + h.l3 * r.l0 + h.l4 * s 3)
    (h.l0 * r.l4 + h.l1 * r.l3 + h.l2 * r.l2 + h.l3 * r.l1 + h.l4 * r.l0)
  -- the columns above `2^130` of the product of the two values
  let high := h.l1 * r.l4 + h.l2 * r.l3 + h.l3 * r.l2 + h.l4 * r.l1 +
    2 ^ 26 * (h.l2 * r.l4 + h.l3 * r.l3 + h.l4 * r.l2) + 2 ^ 52 * (h.l3 * r.l4 + h.l4 * r.l3) + 2 ^ 78 * (h.l4 * r.l4)
  have hmul : val h * val r = val (product h r s) + p * (q + high) := by
    rw [Nat.mul_add, ← Nat.add_assoc, product, hq, s0, s1, s2, s3, val, val, p]
    simp only [high]
    ring
  rw [hmul]
  exact Nat.modEq_add_modulus_mul_iff.mpr rfl

end

/-! ## A block -/

/-- The limbs of 17 bytes: their number, and 26 bits each while the last byte is at most three. -/
theorem bytesToLimbs_eq : ∀ {b : Bytes}, b.length = 17 → (b.getD 16 0).toNat ≤ 3 →
    Canonical (bytesToLimbs b) ∧ val (bytesToLimbs b) = leNat b
  | [b0, b1, b2, b3, b4, b5, b6, b7, b8, b9, b10, b11, b12, b13, b14, b15, b16], _, h => by
    have h0 := b0.isLt
    have h1 := b1.isLt
    have h2 := b2.isLt
    have h3 := b3.isLt
    have h4 := b4.isLt
    have h5 := b5.isLt
    have h6 := b6.isLt
    have h7 := b7.isLt
    have h8 := b8.isLt
    have h9 := b9.isLt
    have h10 := b10.isLt
    have h11 := b11.isLt
    have h12 := b12.isLt
    have h13 := b13.isLt
    have h14 := b14.isLt
    have h15 := b15.isLt
    have h16 : b16.toNat ≤ 3 := h
    refine ⟨?_, ?_⟩
    · constructor <;> simp only [bytesToLimbs, List.getD_cons_zero, List.getD_cons_succ] <;> omega
    · simp only [val, bytesToLimbs, leNat, List.getD_cons_zero, List.getD_cons_succ]
      omega

variable {ctx : Poly1305Ctx}

/-- A state between two blocks. -/
structure Ready (ctx : Poly1305Ctx) : Prop where
  h : Reduced ctx.h
  key : KeyLimbs ctx.r ctx.s

/-- A block in a state between two blocks: nothing wraps around, and the accumulator is the sum times `r`. -/
theorem absorb_step {m : Type → Type} [Monad m] [LawfulMonad m] {W : Words m} (hW : W.Lawful) (h : Ready ctx) {b : Bytes}
    (hb : b.length = 17) (hlast : (b.getD 16 0).toNat ≤ 3) :
    absorbIn W ctx b = pure (absorb ctx b) ∧ Ready (absorb ctx b) ∧
      val (absorb ctx b).h ≡ (val ctx.h + leNat b) * val ctx.r [MOD p] := by
  obtain ⟨⟨t0, t1, t2, t3, t4⟩, hval⟩ := bytesToLimbs_eq hb hlast
  obtain ⟨h0, h1, h2, h3, h4⟩ := h.h
  let sum : Limbs := ⟨ctx.h.l0 + (bytesToLimbs b).l0, ctx.h.l1 + (bytesToLimbs b).l1, ctx.h.l2 + (bytesToLimbs b).l2,
    ctx.h.l3 + (bytesToLimbs b).l3, ctx.h.l4 + (bytesToLimbs b).l4⟩
  have hsum : Sum sum := by
    simp only [Sum, sum]
    omega
  have habsorb : ∀ {m : Type → Type} [Monad m] [LawfulMonad m] {W : Words m}, W.Lawful →
      absorbIn W ctx b = pure { ctx with h := product sum ctx.r ctx.s } := by
    intro m _ _ W hW
    rw [absorbIn, hW.u32 (by omega), pure_bind, hW.u32 (by omega), pure_bind, hW.u32 (by omega), pure_bind,
      hW.u32 (by omega), pure_bind, hW.u32 (by omega), pure_bind, mulmodIn_eq_product hW hsum h.key, pure_bind]
  have hwrap : absorb ctx b = { ctx with h := product sum ctx.r ctx.s } :=
    (absorbIn_wrapping ctx b).symm.trans (habsorb Words.lawful_wrapping)
  have hvalsum : val sum = val ctx.h + leNat b := by
    rw [← hval]
    simp only [val, sum]
    ring
  rw [hwrap]
  refine ⟨habsorb hW, ⟨product_reduced hsum h.key, h.key⟩, ?_⟩
  rw [← hvalsum]
  exact val_product h.key

/-! ## The end -/

/-- The last carry pass. -/
def passed (h : Limbs) : Limbs :=
  let h2 := h.l2 + h.l1 / 2 ^ 26
  let h3 := h.l3 + h2 / 2 ^ 26
  let h4 := h.l4 + h3 / 2 ^ 26
  let h0 := h.l0 + h4 / 2 ^ 26 * 5
  let h1 := h.l1 % 2 ^ 26 + h0 / 2 ^ 26
  ⟨h0 % 2 ^ 26, h1 % 2 ^ 26, h2 % 2 ^ 26 + h1 / 2 ^ 26, h3 % 2 ^ 26, h4 % 2 ^ 26⟩

theorem carryPassIn_eq {m : Type → Type} [Monad m] [LawfulMonad m] {W : Words m} (hW : W.Lawful) {h : Limbs}
    (hh : Reduced h) : carryPassIn W h = pure (passed h) := by
  obtain ⟨h0, h1, h2, h3, h4⟩ := hh
  rw [carryPassIn, hW.u32 (by omega), pure_bind, hW.u32 (by omega), pure_bind, hW.u32 (by omega), pure_bind,
    hW.u32 (by omega), pure_bind, hW.u32 (by omega), pure_bind, hW.u32 (by omega), pure_bind]
  rfl

theorem carryPass_eq {h : Limbs} (hh : Reduced h) : carryPass h = passed h :=
  (carryPassIn_wrapping h).symm.trans (carryPassIn_eq Words.lawful_wrapping hh)

/-- After the pass every limb has 26 bits. A carry out of the second limb at the start leaves less than 64 in it, so
that the carry that comes back to it ends there; without one at the start, there is none. -/
theorem passed_canonical {h : Limbs} (hh : Reduced h) : Canonical (passed h) := by
  obtain ⟨h0, h1, h2, h3, h4⟩ := hh
  unfold passed
  by_cases hcarry : h.l1 < 2 ^ 26
  · have hzero : h.l1 / 2 ^ 26 = 0 := Nat.div_eq_of_lt hcarry
    constructor <;> dsimp only <;> omega
  · have hone : h.l1 / 2 ^ 26 = 1 := by omega
    constructor <;> dsimp only <;> omega

theorem val_passed (h : Limbs) : val (passed h) ≡ val h [MOD p] := by
  have hval : val h = val (passed h) + p * ((h.l4 + (h.l3 + (h.l2 + h.l1 / 2 ^ 26) / 2 ^ 26) / 2 ^ 26) / 2 ^ 26) := by
    simp only [val, passed, p]
    omega
  rw [hval]
  exact Nat.modEq_add_modulus_mul_iff.mpr rfl

/-- One limb of the subtraction: its digit, and the borrow. -/
theorem subLimb_eq {h q borrow : Int} (hh : 0 ≤ h ∧ h < 2 ^ 26) (hq : 0 ≤ q ∧ q < 2 ^ 26) (hb : borrow = 0 ∨ borrow = 1) :
    ∃ d b', subLimb h q borrow = (d, b') ∧ (0 ≤ d ∧ d < 2 ^ 26) ∧ (b' = 0 ∨ b' = 1) ∧ d = h - q - borrow + 2 ^ 26 * b' := by
  rw [subLimb]
  split
  · exact ⟨_, _, rfl, by omega, .inr rfl, by omega⟩
  · exact ⟨_, _, rfl, by omega, .inl rfl, by omega⟩

/-- The subtraction of `p` reduces a number of canonical limbs. -/
theorem subP_eq {h : Limbs} (hh : Canonical h) : Canonical (subP h) ∧ val (subP h) = val h % p := by
  obtain ⟨h0, h1, h2, h3, h4⟩ := hh
  obtain ⟨d0, b0, e0, hd0, hb0, v0⟩ := subLimb_eq (h := h.l0) (q := 0x3fffffb) (by omega) (by decide) (.inl rfl)
  obtain ⟨d1, b1, e1, hd1, hb1, v1⟩ := subLimb_eq (h := h.l1) (q := 0x3ffffff) (by omega) (by decide) hb0
  obtain ⟨d2, b2, e2, hd2, hb2, v2⟩ := subLimb_eq (h := h.l2) (q := 0x3ffffff) (by omega) (by decide) hb1
  obtain ⟨d3, b3, e3, hd3, hb3, v3⟩ := subLimb_eq (h := h.l3) (q := 0x3ffffff) (by omega) (by decide) hb2
  obtain ⟨d4, b4, e4, hd4, hb4, v4⟩ := subLimb_eq (h := h.l4) (q := 0x3ffffff) (by omega) (by decide) hb3
  unfold subP
  simp only [e0, e1, e2, e3, e4]
  have hlt : val h < 2 ^ 130 := by
    simp only [val]
    omega
  rcases hb4 with rfl | rfl
  · -- no borrow: the number is at least `p`
    have hval : val ⟨d0.toNat, d1.toNat, d2.toNat, d3.toNat, d4.toNat⟩ + p = val h := by
      simp only [val, p]
      omega
    rw [if_pos rfl]
    refine ⟨?_, ?_⟩
    · constructor <;> dsimp only <;> omega
    · rw [← hval, Nat.add_mod_right, Nat.mod_eq_of_lt]
      simp only [p] at hval ⊢
      omega
  · have hval : val h < p := by
      simp only [val, p]
      omega
    rw [if_neg (by decide), Nat.mod_eq_of_lt hval]
    exact ⟨⟨h0, h1, h2, h3, h4⟩, rfl⟩

end ND.Proof.Poly1305
