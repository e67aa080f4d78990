import NanoDtls.Impl.P256
import Mathlib.Data.Nat.ModEq
import Mathlib.Tactic.Ring
import Mathlib.Tactic.Positivity

/-!
# The bignums of P-256

What each routine does to values: the carry and borrow chains are exact with
their carry (`addLoop_val`, `subLoop_val`), the comparison is that of the
values (`bnCmp_eq`), `bn_mul_wide` is the product and its carry loop ends
inside the array (`bnMulWide_ok`), and the bitwise long division leaves the
remainder (`modReduceWide_val`).
-/

namespace ND.Proof.P256

open ND.Impl ND.Impl.P256

@[simp] theorem bnVal_nil : bnVal [] = 0 := rfl

@[simp] theorem bnVal_cons (x : Limb) (l : List Limb) : bnVal (x :: l) = x.toNat + 2 ^ 32 * bnVal l := rfl

/-- The weight of the limb after `n` limbs. -/
def weight (n : Nat) : Nat := 2 ^ (32 * n)

theorem weight_succ (n : Nat) : weight (n + 1) = 2 ^ 32 * weight n := by
  rw [weight, weight, Nat.mul_succ, Nat.pow_add, Nat.mul_comm]

theorem bnVal_lt : ∀ l : List Limb, bnVal l < weight l.length
  | [] => Nat.one_pos
  | x :: l => by
    have hx := x.isLt
    have ih := bnVal_lt l
    rw [bnVal_cons, List.length_cons, weight_succ]
    generalize weight l.length = W at *
    omega

theorem Bn256.lt (a : Bn256) : bnVal a.1 < 2 ^ 256 := by
  have := bnVal_lt a.1
  rwa [a.2] at this

theorem bnVal_append : ∀ l m : List Limb, bnVal (l ++ m) = bnVal l + weight l.length * bnVal m
  | [], m => by simp [weight]
  | x :: l, m => by
    rw [List.cons_append, bnVal_cons, bnVal_append l m, bnVal_cons, List.length_cons, weight_succ]
    ring

/-- Limbs are determined by their value. -/
theorem bnVal_inj : ∀ {l m : List Limb}, l.length = m.length → bnVal l = bnVal m → l = m
  | [], [], _, _ => rfl
  | [], _ :: _, h, _ => absurd h (by simp)
  | _ :: _, [], h, _ => absurd h (by simp)
  | x :: l, y :: m, hlen, h => by
    have hx := x.isLt
    have hy := y.isLt
    rw [bnVal_cons, bnVal_cons] at h
    rw [bnVal_inj (by simpa using hlen) (by omega : bnVal l = bnVal m), BitVec.eq_of_toNat_eq (by omega : x.toNat = y.toNat)]

theorem Bn256.ext {a b : Bn256} (h : bnVal a.1 = bnVal b.1) : a = b :=
  Subtype.ext (bnVal_inj (a.2.trans b.2.symm) h)

theorem bnIsZero_iff (a : Bn256) : bnIsZero a = true ↔ bnVal a.1 = 0 := by
  have key : ∀ l : List Limb, (l.all (· == 0)) = true ↔ bnVal l = 0 := fun l => by
    induction l with
    | nil => simp
    | cons x l ih =>
      rw [List.all_cons, Bool.and_eq_true, ih, bnVal_cons, beq_iff_eq, ← BitVec.toNat_inj]
      simp
  exact key a.1

/-! ## Addition, subtraction, comparison -/

theorem addLoop_val : ∀ (a b : List Limb) (c : Nat), a.length = b.length → c ≤ 1 →
    bnVal (addLoop c (a.zip b)).1 + weight a.length * (addLoop c (a.zip b)).2 = bnVal a + bnVal b + c ∧
      (addLoop c (a.zip b)).2 ≤ 1
  | [], [], c, _, hc => by simp [addLoop, weight, hc]
  | [], _ :: _, _, h, _ => absurd h (by simp)
  | _ :: _, [], _, h, _ => absurd h (by simp)
  | x :: a, y :: b, c, h, hc => by
    have hx := x.isLt
    have hy := y.isLt
    have hs : (x.toNat + y.toNat + c) % 2 ^ 64 = x.toNat + y.toNat + c := Nat.mod_eq_of_lt (by omega)
    obtain ⟨ih, ihc⟩ := addLoop_val a b ((x.toNat + y.toNat + c) / 2 ^ 32) (by simpa using h) (by omega)
    simp only [List.zip_cons_cons, addLoop, hs, bnVal_cons, List.length_cons, weight_succ, BitVec.toNat_ofNat]
    refine ⟨?_, ihc⟩
    rw [Nat.mul_assoc]
    generalize weight a.length * (addLoop _ (a.zip b)).2 = Y at ih ⊢
    omega

theorem subLoop_val : ∀ (a b : List Limb) (c : Nat), a.length = b.length → c ≤ 1 →
    bnVal (subLoop c (a.zip b)).1 + bnVal b + c = bnVal a + weight a.length * (subLoop c (a.zip b)).2 ∧
      (subLoop c (a.zip b)).2 ≤ 1
  | [], [], c, _, hc => by simp [subLoop, weight, hc]
  | [], _ :: _, _, h, _ => absurd h (by simp)
  | _ :: _, [], _, h, _ => absurd h (by simp)
  | x :: a, y :: b, c, h, hc => by
    have hx := x.isLt
    have hy := y.isLt
    generalize hd : (x.toNat + 2 ^ 64 - y.toNat + 2 ^ 64 - c) % 2 ^ 64 = d
    -- the sign bit is set exactly if the limb borrows
    have hb : d / 2 ^ 63 % 2 ≤ 1 ∧ d % 2 ^ 32 + y.toNat + c = x.toNat + 2 ^ 32 * (d / 2 ^ 63 % 2) := by omega
    obtain ⟨ih, ihc⟩ := subLoop_val a b (d / 2 ^ 63 % 2) (by simpa using h) hb.1
    simp only [List.zip_cons_cons, subLoop, hd, bnVal_cons, List.length_cons, weight_succ, BitVec.toNat_ofNat]
    refine ⟨?_, ihc⟩
    rw [Nat.mul_assoc]
    generalize weight a.length * (subLoop _ (a.zip b)).2 = Y at ih ⊢
    omega

theorem cmpLoop_append : ∀ (l : List (Limb × Limb)) (x y : Limb), cmpLoop (l ++ [(x, y)]) =
    if cmpLoop l ≠ 0 then cmpLoop l else if x = y then 0 else if x < y then -1 else 1
  | [], x, y => by simp [cmpLoop, ite_not]
  | (a, b) :: l, x, y => by
    simp only [List.cons_append, cmpLoop]
    by_cases hab : a = b
    · simp only [hab, ne_eq, not_true_eq_false, ↓reduceIte]
      exact cmpLoop_append l x y
    · simp only [hab, ne_eq, not_false_eq_true, ↓reduceIte]
      split <;> simp

/-- The comparison is that of the values. -/
theorem cmpLoop_eq : ∀ a b : List Limb, a.length = b.length → cmpLoop (a.zip b).reverse =
    if bnVal a < bnVal b then -1 else if bnVal a = bnVal b then 0 else 1
  | [], [], _ => by simp [cmpLoop]
  | [], _ :: _, h => absurd h (by simp)
  | _ :: _, [], h => absurd h (by simp)
  | x :: a, y :: b, h => by
    have hx := x.isLt
    have hy := y.isLt
    rw [List.zip_cons_cons, List.reverse_cons, cmpLoop_append, cmpLoop_eq a b (by simpa using h), bnVal_cons,
      bnVal_cons]
    simp only [← BitVec.toNat_inj, BitVec.lt_def]
    split_ifs <;> first | rfl | omega

theorem bnCmp_eq (a b : Bn256) :
    bnCmp a b = if bnVal a.1 < bnVal b.1 then -1 else if bnVal a.1 = bnVal b.1 then 0 else 1 :=
  cmpLoop_eq a.1 b.1 (a.2.trans b.2.symm)

theorem bnCmp_nonneg (a b : Bn256) : 0 ≤ bnCmp a b ↔ bnVal b.1 ≤ bnVal a.1 := by
  rw [bnCmp_eq]
  split_ifs <;> simp <;> omega

theorem bnCmp_eq_zero (a b : Bn256) : bnCmp a b = 0 ↔ bnVal a.1 = bnVal b.1 := by
  rw [bnCmp_eq]
  split_ifs <;> simp <;> omega

theorem bnAddRaw_val (a b : Bn256) :
    bnVal (bnAddRaw a b).1.1 + 2 ^ 256 * (bnAddRaw a b).2 = bnVal a.1 + bnVal b.1 ∧ (bnAddRaw a b).2 ≤ 1 := by
  have h := addLoop_val a.1 b.1 0 (a.2.trans b.2.symm) (by decide)
  rw [a.2] at h
  exact h

theorem bnSubRaw_val (a b : Bn256) :
    bnVal (bnSubRaw a b).1.1 + bnVal b.1 = bnVal a.1 + 2 ^ 256 * (bnSubRaw a b).2 ∧ (bnSubRaw a b).2 ≤ 1 := by
  have h := subLoop_val a.1 b.1 0 (a.2.trans b.2.symm) (by decide)
  rw [a.2] at h
  exact h

/-- `mod_add` of reduced values. -/
theorem modAdd_val {a b m : Bn256} (ha : bnVal a.1 < bnVal m.1) (hb : bnVal b.1 < bnVal m.1) :
    bnVal (modAdd a b m).1 = (bnVal a.1 + bnVal b.1) % bnVal m.1 := by
  obtain ⟨hs, hc⟩ := bnAddRaw_val a b
  obtain ⟨hd, hd1⟩ := bnSubRaw_val (bnAddRaw a b).1 m
  have hm := Bn256.lt m
  have hlt := Bn256.lt (bnSubRaw (bnAddRaw a b).1 m).1
  have hlt' := Bn256.lt (bnAddRaw a b).1
  simp only [modAdd]
  split
  · rename_i h
    rw [bnCmp_nonneg] at h
    rw [Nat.mod_eq_sub_mod (by omega), Nat.mod_eq_of_lt (by omega)]
    omega
  · rename_i h
    rw [bnCmp_nonneg] at h
    rw [Nat.mod_eq_of_lt (by omega)]
    omega

/-- `mod_sub` of reduced values. -/
theorem modSub_val {a b m : Bn256} (ha : bnVal a.1 < bnVal m.1) (hb : bnVal b.1 < bnVal m.1) :
    bnVal (modSub a b m).1 = (bnVal a.1 + bnVal m.1 - bnVal b.1) % bnVal m.1 := by
  obtain ⟨hd, hd1⟩ := bnSubRaw_val a b
  obtain ⟨hs, hs1⟩ := bnAddRaw_val (bnSubRaw a b).1 m
  have hm := Bn256.lt m
  have hlt := Bn256.lt (bnAddRaw (bnSubRaw a b).1 m).1
  have hlt' := Bn256.lt (bnSubRaw a b).1
  simp only [modSub]
  split
  · rw [Nat.mod_eq_of_lt (by omega)]
    omega
  · rw [Nat.mod_eq_sub_mod (by omega), Nat.mod_eq_of_lt (by omega)]
    omega

/-! ## The wide product -/

theorem carryRow_ok : ∀ (o : List Limb) (c : Nat), c < 2 ^ 32 → bnVal o + c < weight o.length →
    ∃ r, carryRow c o = .ok r ∧ r.length = o.length ∧ bnVal r = bnVal o + c
  | o, 0, _, _ => ⟨o, by cases o <;> rfl, rfl, rfl⟩
  | [], c + 1, _, h => absurd h (by simp [weight])
  | z :: o, c + 1, hc, h => by
    have hz := z.isLt
    rw [bnVal_cons, List.length_cons, weight_succ] at h
    have ht : (z.toNat + (c + 1)) % 2 ^ 64 = z.toNat + (c + 1) := Nat.mod_eq_of_lt (by omega)
    obtain ⟨r, hr, hlen, hval⟩ := carryRow_ok o ((z.toNat + (c + 1)) / 2 ^ 32) (by omega) (by omega)
    refine ⟨BitVec.ofNat 32 (z.toNat + (c + 1)) :: r, ?_, by rw [List.length_cons, hlen]; rfl, ?_⟩
    · simp only [carryRow, ht, hr, ok_bind]
      rfl
    · rw [bnVal_cons, bnVal_cons, BitVec.toNat_ofNat, hval]
      omega

theorem mul_limb_le {x y z c : Nat} (hx : x < 2 ^ 32) (hy : y < 2 ^ 32) (hz : z < 2 ^ 32) (hc : c < 2 ^ 32) :
    x * y + z + c < 2 ^ 64 := by
  have : x * y ≤ (2 ^ 32 - 1) * (2 ^ 32 - 1) := Nat.mul_le_mul (by omega) (by omega)
  omega

/-- A row of the product: the limb times `b` is added, and the carry stays inside `o` if the sum does. -/
theorem mulRow_ok (x : Limb) : ∀ (b o : List Limb) (c : Nat), c < 2 ^ 32 → b.length ≤ o.length →
    bnVal o + x.toNat * bnVal b + c < weight o.length →
    ∃ r, mulRow x c b o = .ok r ∧ r.length = o.length ∧ bnVal r = bnVal o + x.toNat * bnVal b + c
  | [], o, c, hc, _, h => by
    rw [bnVal_nil, Nat.mul_zero, Nat.add_zero] at h ⊢
    rw [mulRow]
    exact carryRow_ok o c hc h
  | _ :: _, [], _, _, hlen, _ => absurd hlen (by simp)
  | y :: b, z :: o, c, hc, hlen, h => by
    have hlt := mul_limb_le x.isLt y.isLt z.isLt hc
    have hexp : x.toNat * (y.toNat + 2 ^ 32 * bnVal b) = x.toNat * y.toNat + 2 ^ 32 * (x.toNat * bnVal b) := by
      ring
    rw [bnVal_cons, bnVal_cons, List.length_cons, weight_succ, hexp] at h
    generalize ht : x.toNat * y.toNat + z.toNat + c = t at hlt
    obtain ⟨r, hr, hrl, hval⟩ := mulRow_ok x b o (t / 2 ^ 32) (by omega) (by simpa using hlen) (by omega)
    refine ⟨BitVec.ofNat 32 t :: r, ?_, by rw [List.length_cons, hrl]; rfl, ?_⟩
    · simp only [mulRow, ht, Nat.mod_eq_of_lt hlt, hr, ok_bind]
      rfl
    · rw [bnVal_cons, bnVal_cons, bnVal_cons, BitVec.toNat_ofNat, hval, hexp]
      omega

/-- All rows. Before each of them what is in `o` is at most `b`, so that a row needs one limb more
than `b` has. -/
theorem mulLoop_ok (b : List Limb) : ∀ (a o : List Limb), a.length + b.length ≤ o.length →
    bnVal o ≤ bnVal b →
    ∃ r, mulLoop b a o = .ok r ∧ r.length = o.length ∧ bnVal r = bnVal o + bnVal a * bnVal b
  | [], o, _, _ => ⟨o, rfl, rfl, by simp⟩
  | x :: a, o, hlen, ho => by
    have hb := bnVal_lt b
    have hx := x.isLt
    have hw : weight (b.length + 1) ≤ weight o.length :=
      Nat.pow_le_pow_right (by decide) (by simp only [List.length_cons] at hlen; omega)
    have hxb : x.toNat * bnVal b + bnVal b ≤ 2 ^ 32 * bnVal b := by
      rw [← Nat.succ_mul]; exact Nat.mul_le_mul_right _ hx
    rw [weight_succ] at hw
    obtain ⟨r, hr, hrl, hval⟩ := mulRow_ok x b o 0 (by decide) (by simp only [List.length_cons] at hlen; omega)
      (by omega)
    obtain ⟨z, r, rfl⟩ : ∃ z r', r = z :: r' := by
      cases r with
      | nil => simp only [List.length_nil, List.length_cons] at hrl hlen; omega
      | cons z r => exact ⟨z, r, rfl⟩
    rw [bnVal_cons] at hval
    obtain ⟨r', hr', hrl', hval'⟩ := mulLoop_ok b a r (by simp only [List.length_cons] at hlen hrl; omega) (by omega)
    refine ⟨z :: r', ?_, by rw [List.length_cons, hrl', ← List.length_cons, hrl], ?_⟩
    · simp only [mulLoop, hr, ok_bind, hr']
      rfl
    · rw [bnVal_cons, bnVal_cons, hval', Nat.add_mul, Nat.mul_add, Nat.mul_assoc]
      omega

theorem bnVal_replicate_zero : ∀ n, bnVal (List.replicate n 0) = 0
  | 0 => rfl
  | n + 1 => by rw [List.replicate_succ, bnVal_cons, bnVal_replicate_zero n]; rfl

/-- `bn_mul_wide` is the product, and its carry loop stays in the array. -/
theorem bnMulWide_ok (a b : Bn256) :
    ∃ r, bnMulWide a b = .ok r ∧ r.length = 16 ∧ bnVal r = bnVal a.1 * bnVal b.1 := by
  obtain ⟨r, hr, hlen, hval⟩ := mulLoop_ok b.1 a.1 (List.replicate 16 0) (by simp [a.2, b.2])
    (by rw [bnVal_replicate_zero]; exact Nat.zero_le _)
  exact ⟨r, hr, by simpa using hlen, by rw [hval, bnVal_replicate_zero, Nat.zero_add]⟩

/-! ## Bits and long division -/

/-- The bits of the limbs are those of the value. -/
theorem getLsbD_getD : ∀ (l : List Limb) (i : Nat), (l.getD (i / 32) 0).getLsbD (i % 32) = (bnVal l).testBit i
  | [], i => by simp
  | x :: l, i => by
    rw [bnVal_cons, Nat.add_comm, Nat.testBit_two_pow_mul_add _ x.isLt]
    split
    · rename_i h
      rw [Nat.div_eq_of_lt h, Nat.mod_eq_of_lt h, List.getD_cons_zero]
      rfl
    · rename_i h
      have hi : i = i - 32 + 32 := by omega
      rw [← getLsbD_getD l (i - 32), show i / 32 = (i - 32) / 32 + 1 by omega, List.getD_cons_succ,
        show i % 32 = (i - 32) % 32 by omega]

theorem bnTestBit_eq (a : Bn256) (i : Nat) : bnTestBit a i = (bnVal a.1).testBit i := getLsbD_getD a.1 i

/-- A bit or'ed into an even number is added. -/
theorem even_or (n : Nat) {b : Nat} (hb : b ≤ 1) : 2 * n ||| b = 2 * n + b :=
  (Nat.two_pow_add_eq_or_of_lt (i := 1) (by omega) n).symm

theorem shlLoop_val : ∀ (l : List Limb) (c : Limb), c.toNat ≤ 1 → 2 * bnVal l + c.toNat < weight l.length →
    bnVal (shlLoop c l) = 2 * bnVal l + c.toNat
  | [], c, _, h => by
    rw [bnVal_nil, List.length_nil, show weight 0 = 1 from rfl] at h
    rw [shlLoop, bnVal_nil]
    omega
  | x :: l, c, hc, h => by
    have hx := x.isLt
    have hcarry : (x >>> 31).toNat = x.toNat / 2 ^ 31 := by rw [BitVec.toNat_ushiftRight, Nat.shiftRight_eq_div_pow]
    have hlow : (x <<< 1 ||| c).toNat = 2 * (x.toNat % 2 ^ 31) + c.toNat := by
      rw [BitVec.toNat_or, BitVec.toNat_shiftLeft, Nat.shiftLeft_eq, ← even_or _ hc]
      congr 1
      omega
    rw [bnVal_cons, List.length_cons, weight_succ] at h
    rw [shlLoop, bnVal_cons, bnVal_cons, hlow, shlLoop_val l (x >>> 31) (by omega) (by omega), hcarry]
    omega

theorem orLow_val (b : Bool) : ∀ l : List Limb, l ≠ [] → bnVal l % 2 = 0 →
    bnVal (orLow b l) = bnVal l + b.toNat
  | [], h, _ => absurd rfl h
  | x :: l, _, h => by
    rw [bnVal_cons] at h
    have hb : ((BitVec.ofBool b).setWidth 32).toNat = b.toNat := by cases b <;> rfl
    have hx : x.toNat = 2 * (x.toNat / 2) := by omega
    have hle : b.toNat ≤ 1 := by cases b <;> decide
    rw [orLow, bnVal_cons, bnVal_cons, BitVec.toNat_or, hb, hx, even_or _ hle]
    omega

/-- The 9 limbs of `rem`, as the low 8 and the top one. -/
theorem exists_low_high {l : List Limb} (h : l.length = 9) :
    ∃ (lo : Bn256) (hi : Limb), l = lo.1 ++ [hi] ∧ bnVal l = bnVal lo.1 + 2 ^ 256 * hi.toNat := by
  obtain ⟨hi, hdrop⟩ := List.length_eq_one_iff.1 (show (l.drop 8).length = 1 by rw [List.length_drop, h])
  have htake : (l.take 8).length = 8 := by rw [List.length_take, h]; rfl
  have hl : l = l.take 8 ++ [hi] := by rw [← hdrop, List.take_append_drop]
  refine ⟨⟨l.take 8, htake⟩, hi, hl, ?_⟩
  conv_lhs => rw [hl, bnVal_append, htake, bnVal_cons, bnVal_nil]
  rfl

/-- A turn of the long division on a remainder. -/
theorem reduceStep_val {wide : List Limb} {m : Bn256} {rem : List Limb} (bit : Nat) (hlen : rem.length = 9)
    (hrem : bnVal rem < bnVal m.1) :
    bnVal (reduceStep wide m rem bit) = (2 * bnVal rem + ((bnVal wide).testBit bit).toNat) % bnVal m.1 := by
  have hm := Bn256.lt m
  have hshl := shlLoop_val rem 0 (by decide) (by
    rw [hlen, weight_succ 8, show weight 8 = 2 ^ 256 from rfl, show (0 : Limb).toNat = 0 from rfl]
    omega)
  simp only [reduceStep, getLsbD_getD]
  generalize (bnVal wide).testBit bit = b
  have hb : b.toNat ≤ 1 := by cases b <;> decide
  have hval : bnVal (orLow b (shlLoop 0 rem)) = 2 * bnVal rem + b.toNat := by
    rw [orLow_val b _ _ (by rw [hshl]; simp), hshl]
    · simp
    · intro h
      have := length_shlLoop 0 rem
      rw [h, hlen] at this
      cases this
  obtain ⟨lo, hi, hl, hv⟩ := exists_low_high (l := orLow b (shlLoop 0 rem)) (by rw [length_orLow, length_shlLoop, hlen])
  have htake : (orLow b (shlLoop 0 rem)).take 8 = lo.1 := by rw [hl, List.take_left' lo.2]
  have hget : (orLow b (shlLoop 0 rem)).getD 8 0 = hi := by rw [hl]; simp [List.getD_eq_getElem?_getD, lo.2]
  rw [htake, hget, ← hval]
  obtain ⟨hsub, hsub1⟩ := bnSubRaw_val lo m
  have hge : rem9GeM lo.1 hi m = true ↔ bnVal m.1 ≤ bnVal (orLow b (shlLoop 0 rem)) := by
    have hcmp := bnCmp_nonneg lo m
    rw [rem9GeM, Bool.or_eq_true, bne_iff_ne, decide_eq_true_eq, show cmpLoop (lo.1.zip m.1).reverse = bnCmp lo m from rfl,
      hcmp, ne_eq, ← BitVec.toNat_inj, hv]
    rw [show (0 : Limb).toNat = 0 from rfl]
    omega
  split
  · rename_i h
    rw [hge] at h
    rw [Nat.mod_eq_sub_mod h, Nat.mod_eq_of_lt (by omega), bnVal_append, length_subLoop, List.length_zip, lo.2, m.2]
    change bnVal (bnSubRaw lo m).1.1 + 2 ^ 256 * bnVal [BitVec.ofNat 32 (hi.toNat + 2 ^ 64 - (bnSubRaw lo m).2)] = _
    have hlt := Bn256.lt (bnSubRaw lo m).1
    have hhi : (hi.toNat + 2 ^ 64 - (bnSubRaw lo m).2) % 2 ^ 32 = hi.toNat - (bnSubRaw lo m).2 := by omega
    rw [bnVal_cons, bnVal_nil, BitVec.toNat_ofNat, hhi]
    omega
  · rename_i h
    rw [hge] at h
    rw [Nat.mod_eq_of_lt (by omega)]

/-- The next bit of the quotient by a power of two. -/
theorem div_two_pow_succ (v k : Nat) : v / 2 ^ k = 2 * (v / 2 ^ (k + 1)) + (v.testBit k).toNat := by
  rw [Nat.testBit_eq_decide_div_mod_eq, Nat.pow_succ, ← Nat.div_div_eq_div_mul]
  rcases Nat.mod_two_eq_zero_or_one (v / 2 ^ k) with h | h <;> simp only [h] <;> simp <;> omega

/-- The first `j` turns of the long division of `n` bits: the remainder of the bits that have been shifted in. -/
theorem foldl_reduceStep_val (wide : List Limb) {m : Bn256} (hm : 0 < bnVal m.1) {n : Nat} (hwide : bnVal wide < 2 ^ n) :
    ∀ j ≤ n, bnVal (((List.range n).reverse.take j).foldl (reduceStep wide m) (List.replicate 9 0)) =
      bnVal wide / 2 ^ (n - j) % bnVal m.1
  | 0, _ => by
    rw [List.take_zero, List.foldl_nil, bnVal_replicate_zero, Nat.sub_zero, Nat.div_eq_of_lt hwide, Nat.zero_mod]
  | j + 1, hj => by
    have ih := foldl_reduceStep_val wide hm hwide j (Nat.le_of_succ_le hj)
    have hlen : (((List.range n).reverse.take j).foldl (reduceStep wide m) (List.replicate 9 0)).length = 9 :=
      length_foldl_reduceStep wide m _ _ List.length_replicate
    rw [List.take_succ_eq_append_getElem (by rw [List.length_reverse, List.length_range]; exact hj), List.foldl_append,
      List.foldl_cons, List.foldl_nil, List.getElem_reverse, List.getElem_range, List.length_range,
      reduceStep_val _ hlen (ih ▸ Nat.mod_lt _ hm), ih, show n - j = n - (j + 1) + 1 by omega,
      show n - 1 - j = n - (j + 1) by omega, div_two_pow_succ (bnVal wide) (n - (j + 1)), Nat.add_mod, Nat.mul_mod,
      Nat.mod_mod, ← Nat.mul_mod, ← Nat.add_mod]

theorem bnVal_wide_lt {wide : List Limb} (hlen : wide.length = 16) : bnVal wide < 2 ^ 512 := by
  have hwide := bnVal_lt wide
  rwa [hlen, weight, show 32 * 16 = 512 from rfl] at hwide

/-- `mod_reduce_wide` of a product is the remainder. -/
theorem modReduceWide_val {wide : List Limb} (hlen : wide.length = 16) {m : Bn256} (hm : 0 < bnVal m.1) :
    bnVal (modReduceWide wide m).1 = bnVal wide % bnVal m.1 := by
  have hval := foldl_reduceStep_val wide hm (bnVal_wide_lt hlen) 512 (Nat.le_refl _)
  rw [List.take_of_length_le (by rw [List.length_reverse, List.length_range]), Nat.sub_self, Nat.pow_zero, Nat.div_one] at hval
  obtain ⟨lo, hi, hl, hv⟩ := exists_low_high (length_foldl_reduceStep wide m (List.range 512).reverse (List.replicate 9 0)
    List.length_replicate)
  have hlt := Nat.mod_lt (bnVal wide) hm
  have hmlt := Bn256.lt m
  simp only [modReduceWide]
  rw [hl, List.take_left' lo.2]
  omega

/-- `mod_mul`. -/
theorem modMul_ok (a b : Bn256) {m : Bn256} (hm : 0 < bnVal m.1) :
    ∃ o, modMul a b m = .ok o ∧ bnVal o.1 = bnVal a.1 * bnVal b.1 % bnVal m.1 := by
  obtain ⟨wide, hwide, hlen, hval⟩ := bnMulWide_ok a b
  exact ⟨modReduceWide wide m, by rw [modMul, hwide]; rfl, by rw [modReduceWide_val hlen hm, hval]⟩

/-- The loop of `mod_reduce_once` subtracts as often as the quotient says, then it stops. -/
theorem reduceOnceLoop_ok {m : Bn256} (hm : 0 < bnVal m.1) : ∀ (fuel : Nat) (a : Bn256), bnVal a.1 < fuel * bnVal m.1 →
    ∃ o, reduceOnceLoop m fuel a = .ok o ∧ bnVal o.1 = bnVal a.1 % bnVal m.1
  | 0, _, h => absurd h (by rw [Nat.zero_mul]; exact Nat.not_lt_zero _)
  | fuel + 1, a, h => by
    rw [Nat.succ_mul] at h
    by_cases hge : 0 ≤ bnCmp a m
    · have hle := (bnCmp_nonneg a m).1 hge
      obtain ⟨hs, hs1⟩ := bnSubRaw_val a m
      have hlt := Bn256.lt (bnSubRaw a m).1
      have hlta := Bn256.lt a
      have hsub : bnVal (bnSubRaw a m).1.1 = bnVal a.1 - bnVal m.1 := by omega
      obtain ⟨o, ho, hval⟩ := reduceOnceLoop_ok hm fuel (bnSubRaw a m).1 (by omega)
      exact ⟨o, by rw [reduceOnceLoop, if_pos hge, ho], by rw [hval, hsub, ← Nat.mod_eq_sub_mod hle]⟩
    · refine ⟨a, by rw [reduceOnceLoop, if_neg hge], ?_⟩
      rw [bnCmp_nonneg] at hge
      rw [Nat.mod_eq_of_lt (by omega)]

theorem modReduceOnce_ok (a : Bn256) {m : Bn256} (hm : 0 < bnVal m.1) :
    ∃ o, modReduceOnce a m = .ok o ∧ bnVal o.1 = bnVal a.1 % bnVal m.1 :=
  reduceOnceLoop_ok hm _ a (Nat.lt_of_lt_of_le (Nat.lt_succ_self _) (Nat.le_mul_of_pos_right _ hm))

/-! ## Bytes -/

theorem bnVal_map_range {b : Bytes} (hb : b.length = 32) : ∀ j, j ≤ 8 →
    bnVal ((List.range j).map fun i => BitVec.ofNat 32 (beNat ((b.drop ((7 - i) * 4)).take 4))) =
      beNat (b.drop ((8 - j) * 4))
  | 0, _ => by simp [List.drop_of_length_le (Nat.le_of_eq hb)]
  | j + 1, hj => by
    -- the next four bytes are the next limb
    have hsplit : b.drop ((7 - j) * 4) = (b.drop ((7 - j) * 4)).take 4 ++ b.drop ((8 - j) * 4) := by
      conv_lhs => rw [← List.take_append_drop 4 (b.drop ((7 - j) * 4)), List.drop_drop]
      rw [show (7 - j) * 4 + 4 = (8 - j) * 4 by omega]
    have hlimb := beNat_lt ((b.drop ((7 - j) * 4)).take 4)
    rw [List.length_take, List.length_drop, hb, show min 4 (32 - (7 - j) * 4) = 4 by omega,
      show 256 ^ 4 = 2 ^ 32 from rfl] at hlimb
    rw [List.range_succ, List.map_append, bnVal_append, bnVal_map_range hb j (by omega), List.length_map,
      List.length_range, List.map_singleton, bnVal_cons, bnVal_nil, BitVec.toNat_ofNat, Nat.mod_eq_of_lt hlimb,
      show 8 - (j + 1) = 7 - j by omega, hsplit, beNat_append, ← hsplit, List.length_drop, hb, weight,
      show 32 - (8 - j) * 4 = 4 * j by omega, show 256 = 2 ^ 8 from rfl, ← Nat.pow_mul]
    rw [show 8 * (4 * j) = 32 * j by omega, Nat.mul_zero, Nat.add_zero, Nat.add_comm]

theorem bnFromBytesBe_val (b : BytesN 32) : bnVal (bnFromBytesBe b).1 = beNat b.1 :=
  (bnVal_map_range b.2 8 (Nat.le_refl 8)).trans (by simp)

theorem beNat_reverse_flatMap : ∀ l : List Limb, beNat (l.reverse.flatMap fun x => beBytes 4 x.toNat) = bnVal l
  | [] => rfl
  | x :: l => by
    have hx := x.isLt
    rw [List.reverse_cons, List.flatMap_append, List.flatMap_singleton, beNat_append, beNat_reverse_flatMap l, length_beBytes,
      beNat_beBytes, Nat.mod_eq_of_lt (by omega), bnVal_cons, Nat.add_comm, show 256 ^ 4 = 2 ^ 32 from rfl]

theorem bnToBytesBe_val (a : Bn256) : beNat (bnToBytesBe a).1 = bnVal a.1 := beNat_reverse_flatMap a.1

end ND.Proof.P256
