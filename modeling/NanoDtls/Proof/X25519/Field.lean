import NanoDtls.Framework.Limbs
import NanoDtls.Impl.X25519
import Mathlib.Data.Int.Cast.Lemmas
import Mathlib.Algebra.Order.Ring.Abs
import Mathlib.Data.List.GetD
import Mathlib.Tactic.LinearCombination

/-!
# The field arithmetic of X25519

Limbs bounded in absolute value (`Bnd`) can be added, subtracted and
multiplied without leaving `int64_t`. A product comes out with its limbs 1 to
15 reduced and limb 0 at most 38 outside the radix (`Reduced`), which is what
the carry out of the top limb can be worth: it is `-1`, `0` or `1` after the
second carry pass, by the value of the limbs alone (`carryLoop_ok`). Over a
ring in which `2^255 = 19`, each operation is the ring's on the values.
-/

namespace ND.Proof.X25519

open ND.Impl ND.Impl.X25519

/-- The value of a field element's limbs. -/
abbrev val (l : List Int) : Int := limbVal (2 ^ 16) l

theorem i64_ok {v : Int} (h : |v| < 2 ^ 63) : i64 v = .ok v := by
  obtain ⟨h1, h2⟩ := abs_lt.mp h
  rw [i64, if_pos ⟨by omega, h2⟩]

/-- 16 limbs of absolute value at most `M`. -/
structure Bnd (M : Int) (l : List Int) : Prop where
  len : l.length = 16
  abs_le : ∀ x ∈ l, |x| ≤ M

theorem Bnd.mono {M N : Int} {l : List Int} (h : Bnd M l) (hMN : M ≤ N) : Bnd N l :=
  ⟨h.len, fun x hx => (h.abs_le x hx).trans hMN⟩

theorem Bnd.getD {M : Int} {l : List Int} (h : Bnd M l) (i : Nat) (hM : 0 ≤ M) : |l.getD i 0| ≤ M := by
  rw [List.getD_eq_getElem?_getD]
  cases hi : l[i]? with
  | none => simpa using hM
  | some x => exact h.abs_le x (List.mem_of_getElem? hi)

/-! ## Addition and subtraction -/

theorem mapM_ok {α β ε : Type _} {f : α → Except ε β} {g : α → β} : ∀ {l : List α},
    (∀ x ∈ l, f x = .ok (g x)) → l.mapM f = .ok (l.map g)
  | [], _ => rfl
  | x :: l, h => by
    rw [List.mapM_cons, h x List.mem_cons_self, ok_bind, mapM_ok fun y hy => h y (List.mem_cons_of_mem _ hy)]
    rfl

theorem feAdd_ok {M N : Int} {a b : Fe} (ha : Bnd M a) (hb : Bnd N b) (hMN : M + N < 2 ^ 63) :
    ∃ o, feAdd a b = .ok o ∧ Bnd (M + N) o ∧ val o = val a + val b := by
  have hxy : ∀ xy ∈ a.zip b, |xy.1 + xy.2| ≤ M + N := fun xy hxy =>
    (abs_add_le _ _).trans
      (add_le_add (ha.abs_le _ (List.of_mem_zip hxy).1) (hb.abs_le _ (List.of_mem_zip hxy).2))
  refine ⟨(a.zip b).map fun xy => xy.1 + xy.2,
    mapM_ok fun xy h => i64_ok (lt_of_le_of_lt (hxy xy h) hMN), ⟨by simp [ha.len, hb.len], fun x hx => ?_⟩, ?_⟩
  · obtain ⟨xy, h, rfl⟩ := List.mem_map.mp hx
    exact hxy xy h
  · rw [← limbVal_zipWith_add _ a b (ha.len.trans hb.len.symm), List.zip_eq_zipWith, List.map_zipWith]

theorem feSub_ok {M N : Int} {a b : Fe} (ha : Bnd M a) (hb : Bnd N b) (hMN : M + N < 2 ^ 63) :
    ∃ o, feSub a b = .ok o ∧ Bnd (M + N) o ∧ val o = val a - val b := by
  have hneg : Bnd N (b.map (-1 * ·)) := ⟨by simp [hb.len], fun x hx => by
    obtain ⟨y, hy, rfl⟩ := List.mem_map.mp hx
    rw [neg_one_mul, abs_neg]
    exact hb.abs_le y hy⟩
  obtain ⟨o, ho, hbo, hv⟩ := feAdd_ok ha hneg hMN
  refine ⟨o, ?_, hbo, by simp only [hv, val, limbVal_map_mul]; ring⟩
  rw [← ho, feSub, feAdd, List.zip_map_right, List.mapM_map]
  simp only [Function.comp_def, Prod.map_fst, Prod.map_snd, id, neg_one_mul, sub_eq_add_neg]

/-! ## Carrying -/

/-- Sixteen digits. -/
structure Reduced16 (l : List Int) : Prop where
  len : l.length = 16
  digits : Digits (2 ^ 16) l

/-- What a product's limbs are: limb 0 up to 38 outside the radix, the others digits. -/
structure Reduced (l : List Int) : Prop where
  len : l.length = 16
  head : -38 ≤ l.getD 0 0 ∧ l.getD 0 0 < 2 ^ 16 + 38
  tail : Digits (2 ^ 16) l.tail

/-- A carry pass over bounded limbs leaves digits, the value of which and of the carry out is the
value of the limbs and of the carry in. -/
theorem carryLoop_ok {M : Int} (hM1 : 1 ≤ M) (hM : M ≤ 2 ^ 61) : ∀ (l : List Int) (c : Int),
    (∀ x ∈ l, |x| ≤ M) → |c| ≤ M →
    ∃ d c', carryLoop c l = .ok (d, c') ∧ d.length = l.length ∧ Digits (2 ^ 16) d ∧ |c'| ≤ M ∧
      val d + (2 ^ 16) ^ l.length * c' = val l + c
  | [], c, _, hc => by
    refine ⟨[], c, rfl, rfl, fun x hx => ?_, hc, ?_⟩
    · cases hx
    · rw [List.length_nil, pow_zero, one_mul]
  | x :: l, c, hl, hc => by
    have hx := abs_le.mp (hl x List.mem_cons_self)
    have hc' := abs_le.mp hc
    have h1 : i64 (x + c) = .ok (x + c) := i64_ok (abs_lt.mpr ⟨by omega, by omega⟩)
    have h2 : i64 (x + c + 2 ^ 16) = .ok (x + c + 2 ^ 16) := i64_ok (abs_lt.mpr ⟨by omega, by omega⟩)
    have h3 : i64 ((x + c + 2 ^ 16) / 2 ^ 16 - 1) = .ok ((x + c) / 2 ^ 16) := by
      rw [i64_ok (abs_lt.mpr ⟨by omega, by omega⟩)]; congr 1; omega
    have h4 : i64 ((x + c + 2 ^ 16) / 2 ^ 16 * 2 ^ 16) = .ok ((x + c + 2 ^ 16) / 2 ^ 16 * 2 ^ 16) :=
      i64_ok (abs_lt.mpr ⟨by omega, by omega⟩)
    have h5 : i64 (x + c + 2 ^ 16 - (x + c + 2 ^ 16) / 2 ^ 16 * 2 ^ 16) = .ok ((x + c) % 2 ^ 16) := by
      rw [i64_ok (abs_lt.mpr ⟨by omega, by omega⟩)]; congr 1; omega
    obtain ⟨d, c', hd, hlen, hdig, hc'', hval⟩ := carryLoop_ok hM1 hM l ((x + c) / 2 ^ 16)
      (fun y hy => hl y (List.mem_cons_of_mem _ hy)) (abs_le.mpr ⟨by omega, by omega⟩)
    refine ⟨(x + c) % 2 ^ 16 :: d, c', ?_, by rw [List.length_cons, hlen]; rfl, ?_, hc'', ?_⟩
    · simp only [carryLoop, h1, ok_bind, h2, h3, h4, h5, hd]
      rfl
    · intro y hy
      obtain rfl | hy := List.mem_cons.mp hy
      · exact ⟨Int.emod_nonneg _ (by decide), Int.emod_lt_of_pos _ (by decide)⟩
      · exact hdig y hy
    · have hdm := Int.emod_add_mul_ediv (x + c) (2 ^ 16)
      simp only [limbVal_cons, List.length_cons, pow_succ _ l.length] at hval ⊢
      linear_combination (2 ^ 16) * hval + hdm

/-- `fe_carry` on bounded limbs: digits, and the carry out of them worth 38 in limb 0. -/
theorem feCarry_ok {M : Int} {l : Fe} (h : Bnd M l) (hM1 : 1 ≤ M) (hM : M ≤ 2 ^ 55) :
    ∃ d c, feCarry l = .ok (addAt d 0 (38 * c)) ∧ Reduced16 d ∧ |c| ≤ M ∧ val d + 2 ^ 256 * c = val l := by
  obtain ⟨d, c, hd, hlen, hdig, hc, hval⟩ := carryLoop_ok hM1 (hM.trans (by decide)) l 0 h.abs_le (by simp; omega)
  rw [h.len] at hlen hval
  have hc' := abs_le.mp hc
  obtain ⟨x, d', rfl⟩ := List.exists_cons_of_length_eq_add_one hlen
  have hx := hdig x List.mem_cons_self
  refine ⟨x :: d', c, ?_, ⟨hlen, hdig⟩, hc, by rw [← pow_mul, add_zero] at hval; exact hval⟩
  simp only [feCarry, hd, ok_bind, List.getD_cons_zero,
    i64_ok (show |38 * c| < 2 ^ 63 from abs_lt.mpr ⟨by omega, by omega⟩),
    i64_ok (show |x + 38 * c| < 2 ^ 63 from abs_lt.mpr ⟨by omega, by omega⟩)]
  rfl

theorem Reduced16.val_lt {l : List Int} (h : Reduced16 l) : 0 ≤ val l ∧ val l < 2 ^ 256 := by
  have := limbVal_digits (by decide) h.digits
  rwa [h.len, ← pow_mul] at this

/-- Digits with a small multiple of 38 in limb 0. -/
theorem bnd_addAt {d : List Int} (h : Reduced16 d) {c M : Int} (hc : |c| ≤ M) :
    Bnd (2 ^ 16 + 38 * M) (addAt d 0 (38 * c)) := by
  obtain ⟨x, d', rfl⟩ := List.exists_cons_of_length_eq_add_one h.len
  have hc' := abs_le.mp hc
  refine ⟨by rw [length_addAt, h.len], fun y hy => ?_⟩
  obtain rfl | hy := List.mem_cons.mp hy
  · have hx := h.digits x List.mem_cons_self
    exact abs_le.mpr ⟨by simp; omega, by simp; omega⟩
  · have hy' := h.digits y (List.mem_cons_of_mem _ hy)
    have := abs_nonneg c
    exact abs_le.mpr ⟨by omega, by omega⟩

theorem reduced_addAt {d : List Int} (h : Reduced16 d) {c : Int} (hc : |c| ≤ 1) : Reduced (addAt d 0 (38 * c)) := by
  obtain ⟨x, d', rfl⟩ := List.exists_cons_of_length_eq_add_one h.len
  have hx := h.digits x List.mem_cons_self
  have hc' := abs_le.mp hc
  refine ⟨by rw [length_addAt, h.len], ?_, fun y hy => h.digits y (List.mem_cons_of_mem _ hy)⟩
  simp only [addAt, List.getD_cons_zero, List.set_cons_zero]
  omega

theorem val_addAt {d : List Int} (h : Reduced16 d) (v : Int) : val (addAt d 0 v) = val d + v := by
  rw [val, limbVal_addAt _ _ _ _ (by rw [h.len]; decide), pow_zero, one_mul]

theorem Reduced16.reduced {l : List Int} (h : Reduced16 l) : Reduced l := by
  obtain ⟨x, d', rfl⟩ := List.exists_cons_of_length_eq_add_one h.len
  have hx := h.digits x List.mem_cons_self
  exact ⟨h.len, by rw [List.getD_cons_zero]; omega, fun y hy => h.digits y (List.mem_cons_of_mem _ hy)⟩

theorem Reduced.bnd {l : List Int} (h : Reduced l) : Bnd (2 ^ 16 + 38) l := by
  obtain ⟨x, d', rfl⟩ := List.exists_cons_of_length_eq_add_one h.len
  have hx := h.head
  rw [List.getD_cons_zero] at hx
  refine ⟨h.len, fun y hy => ?_⟩
  obtain rfl | hy := List.mem_cons.mp hy
  · exact abs_le.mpr ⟨by omega, by omega⟩
  · have := h.tail y hy
    exact abs_le.mpr ⟨by omega, by omega⟩

/-- Two carry passes reduce limbs below `2^49`: the second carries at most one out. -/
theorem feCarry_feCarry_ok {l : Fe} (h : Bnd (2 ^ 49) l) :
    ∃ o k, (feCarry l >>= feCarry) = .ok o ∧ Reduced o ∧ val o = val l - (2 ^ 256 - 38) * k := by
  obtain ⟨d, c, hd, hred, hc, hval⟩ := feCarry_ok h (by decide) (by decide)
  have hb := (bnd_addAt hred hc).mono (show _ ≤ (2 : Int) ^ 55 by decide)
  obtain ⟨d', c', hd', hred', -, hval'⟩ := feCarry_ok hb (by decide) (by decide)
  have hv := val_addAt hred (38 * c)
  have hr := hred.val_lt
  have hr' := hred'.val_lt
  have hc1 := abs_le.mp hc
  have hc' : |c'| ≤ 1 := abs_le.mpr ⟨by omega, by omega⟩
  refine ⟨_, c + c', by rw [hd, ok_bind, hd'], reduced_addAt hred' hc', ?_⟩
  rw [val_addAt hred']
  linear_combination hval' + hval + hv

/-! ## Multiplication -/

theorem abs_getD_addAt {t : List Int} {m d : Int} (ht : ∀ k, |t.getD k 0| ≤ m) (i k : Nat) :
    |(addAt t i d).getD k 0| ≤ m + |d| := by
  have hk := ht k
  have hd := abs_nonneg d
  by_cases h : i = k ∧ i < t.length
  · obtain ⟨rfl, hi⟩ := h
    rw [addAt, List.getD_eq_getElem?_getD, List.getElem?_set_self hi]
    exact (abs_add_le _ _).trans (by omega)
  · have hset : (addAt t i d).getD k 0 = t.getD k 0 := by
      simp only [addAt, List.getD_eq_getElem?_getD, List.getElem?_set]
      by_cases hik : i = k
      · have hi : t.length ≤ i := Nat.le_of_not_lt fun hlt => h ⟨hik, hlt⟩
        rw [if_pos hik, if_neg (Nat.not_lt.mpr hi), List.getElem?_eq_none (hik ▸ hi)]
      · rw [if_neg hik]
    rw [hset]; omega

/-- The summands of the columns. -/
def summands (a b : Fe) (ps : List (Nat × Nat)) : List (Nat × Int) :=
  ps.map fun ij => (ij.1 + ij.2, a.getD ij.1 0 * b.getD ij.2 0)

/-- Accumulating products of absolute value at most `P` one after the other. -/
theorem foldlM_mulStep {a b : Fe} {P : Int} (hP : ∀ i j, |a.getD i 0 * b.getD j 0| ≤ P) (hP63 : P < 2 ^ 63) :
    ∀ (ps : List (Nat × Nat)) (t : List Int) (m : Int), (∀ k, |t.getD k 0| ≤ m) →
      m + ps.length * P < 2 ^ 63 →
      ps.foldlM (mulStep a b) t = .ok (addAll t (summands a b ps)) ∧
        ∀ k, |(addAll t (summands a b ps)).getD k 0| ≤ m + ps.length * P
  | [], t, m, ht, _ => ⟨rfl, fun k => by simpa [addAll, summands] using ht k⟩
  | (i, j) :: ps, t, m, ht, hm => by
    have hp := hP i j
    have hP0 : 0 ≤ P := (abs_nonneg _).trans hp
    have hn : 0 ≤ (ps.length : Int) * P := by positivity
    rw [List.length_cons, Nat.cast_add, Nat.cast_one, add_mul, one_mul] at hm
    have hsum : |t.getD (i + j) 0 + a.getD i 0 * b.getD j 0| ≤ m + P :=
      (abs_add_le _ _).trans (add_le_add (ht _) hp)
    have hstep : mulStep a b t (i, j) = .ok (addAt t (i + j) (a.getD i 0 * b.getD j 0)) := by
      simp only [mulStep, i64_ok (lt_of_le_of_lt hp hP63), ok_bind,
        i64_ok (lt_of_le_of_lt hsum (by omega : m + P < 2 ^ 63))]
      rfl
    obtain ⟨h1, h2⟩ := foldlM_mulStep hP hP63 ps (addAt t (i + j) (a.getD i 0 * b.getD j 0)) (m + P)
      (fun k => (abs_getD_addAt ht _ k).trans (add_le_add_right hp m)) (by omega)
    rw [List.foldlM_cons, hstep, ok_bind]
    refine ⟨h1, fun k => (h2 k).trans ?_⟩
    rw [List.length_cons, Nat.cast_add, Nat.cast_one, add_mul, one_mul]
    omega

/-- The high limbs folded into the low ones. -/
theorem foldHigh_eq {t : List Int} {M : Int} (ht : ∀ x ∈ t, |x| ≤ M) (hM : 39 * M < 2 ^ 63) :
    foldHigh t = .ok (((t.take 15).zip (t.drop 16)).map (fun xy => xy.1 + 38 * xy.2) ++ [t.getD 15 0]) := by
  have hmap : (((t.take 15).zip (t.drop 16)).mapM fun xy => do
      let d ← i64 (38 * xy.2)
      i64 (xy.1 + d)) = .ok (((t.take 15).zip (t.drop 16)).map fun xy => xy.1 + 38 * xy.2) := mapM_ok fun xy hxy => by
    have h1 := ht xy.1 (List.mem_of_mem_take (List.of_mem_zip hxy).1)
    have h2 := ht xy.2 (List.mem_of_mem_drop (List.of_mem_zip hxy).2)
    have h3 : |38 * xy.2| ≤ 38 * M := by rw [abs_mul]; exact mul_le_mul_of_nonneg_left h2 (by decide)
    have hM0 := (abs_nonneg _).trans h1
    rw [i64_ok (lt_of_le_of_lt h3 (by omega)), ok_bind, i64_ok (lt_of_le_of_lt (abs_add_le _ _) (by omega))]
  rw [foldHigh, hmap]
  rfl

/-- `2^256` is worth 38 in them. -/
theorem foldHigh_ok {t : List Int} {M : Int} (hlen : t.length = 31) (ht : ∀ x ∈ t, |x| ≤ M) (hM0 : 0 ≤ M)
    (hM : 39 * M < 2 ^ 63) :
    ∃ o k, foldHigh t = .ok o ∧ Bnd (39 * M) o ∧ val o = val t - (2 ^ 256 - 38) * k := by
  rw [foldHigh_eq ht hM]
  obtain ⟨lo, x, hi, hlo, hhi, rfl⟩ : ∃ lo x hi, lo.length = 15 ∧ hi.length = 15 ∧ t = lo ++ x :: hi :=
    ⟨t.take 15, t.get ⟨15, by omega⟩, t.drop 16, by simp [hlen], by simp [hlen], by simp⟩
  have htake : (lo ++ x :: hi).take 15 = lo := List.take_left' hlo
  have hdrop : (lo ++ x :: hi).drop 16 = hi := by
    rw [List.append_cons, List.drop_left' (by simp [hlo])]
  have hget : (lo ++ x :: hi).getD 15 0 = x := by
    rw [List.getD_append_right _ _ _ _ (by omega), hlo]; rfl
  have hx : ∀ xy ∈ lo.zip hi, |xy.1 + 38 * xy.2| ≤ 39 * M := fun xy hxy => by
    have h1 := ht xy.1 (List.mem_append_left _ (List.of_mem_zip hxy).1)
    have h2 := ht xy.2 (List.mem_append_right _ (List.mem_cons_of_mem _ (List.of_mem_zip hxy).2))
    have h3 : |38 * xy.2| ≤ 38 * M := by rw [abs_mul]; exact mul_le_mul_of_nonneg_left h2 (by decide)
    exact (abs_add_le _ _).trans (by omega)
  have hz : (lo.zip hi).map (fun xy => xy.1 + 38 * xy.2) = List.zipWith (· + ·) lo (hi.map (38 * ·)) := by
    rw [List.zip_eq_zipWith, List.map_zipWith, List.zipWith_map_right]
  rw [htake, hdrop, hget]
  refine ⟨(lo.zip hi).map (fun xy => xy.1 + 38 * xy.2) ++ [x], val hi, rfl, ⟨by simp [hlo, hhi], fun y hy => ?_⟩, ?_⟩
  · obtain hy | hy := List.mem_append.mp hy
    · obtain ⟨xy, hxy, rfl⟩ := List.mem_map.mp hy
      exact hx xy hxy
    · rw [List.mem_singleton.mp hy]
      exact (ht x (by simp)).trans (by omega)
  · have h38 := limbVal_map_mul (2 ^ 16 : Int) 38 hi
    simp only [val]
    rw [hz, limbVal_append, limbVal_zipWith_add _ _ _ (by simp [hlo, hhi]), h38, limbVal_append,
      List.length_zipWith, List.length_map, hlo, hhi, Nat.min_self, limbVal_cons,
      limbVal_cons, limbVal_nil]
    ring

theorem length_indexPairs : indexPairs.length = 256 := by decide +kernel

theorem indexPairs_lt : ∀ ij ∈ indexPairs, ij.1 + ij.2 < 31 := by decide +kernel

/-- The columns that the loops of `fe_mul` add up. -/
def columns (a b : Fe) : List Int := addAll (List.replicate 31 0) (summands a b indexPairs)

theorem length_columns (a b : Fe) : (columns a b).length = 31 := by
  rw [columns, length_addAll, List.length_replicate]

theorem columns_ok {a b : Fe} (ha : Bnd (2 ^ 17 + 2 ^ 8) a) (hb : Bnd (2 ^ 17 + 2 ^ 8) b) :
    indexPairs.foldlM (mulStep a b) (List.replicate 31 0) = .ok (columns a b) ∧ ∀ x ∈ columns a b, |x| ≤ 2 ^ 43 := by
  have hP : ∀ i j, |a.getD i 0 * b.getD j 0| ≤ 2 ^ 35 := fun i j => by
    rw [abs_mul]
    exact (mul_le_mul (ha.getD i (by decide)) (hb.getD j (by decide)) (abs_nonneg _) (by decide)).trans (by decide)
  have h0 : ∀ k, |(List.replicate 31 (0 : Int)).getD k 0| ≤ 0 := fun k => by
    rw [List.getD_eq_getElem?_getD, List.getElem?_replicate]
    split <;> simp
  obtain ⟨hfold, hbound⟩ := foldlM_mulStep hP (by decide) indexPairs (List.replicate 31 0) 0 h0
    (by rw [length_indexPairs]; decide)
  rw [length_indexPairs] at hbound
  refine ⟨hfold, fun x hx => ?_⟩
  obtain ⟨k, hk, rfl⟩ := List.mem_iff_getElem.mp hx
  have := hbound k
  rw [← columns, List.getD_eq_getElem _ _ hk] at this
  exact this.trans (by decide)

theorem val_columns {a b : Fe} (ha : a.length = 16) (hb : b.length = 16) : val (columns a b) = val a * val b := by
  have hsum := limbVal_addAll (2 ^ 16 : Int) (summands a b indexPairs) (List.replicate 31 0)
    fun q hq => by
      obtain ⟨ij, hij, rfl⟩ := List.mem_map.mp hq
      rw [List.length_replicate]
      exact indexPairs_lt ij hij
  have hprod := sum_products (2 ^ 16 : Int) a b
  rw [ha, hb] at hprod
  have hcols : ((summands a b indexPairs).map fun q => (2 ^ 16 : Int) ^ q.1 * q.2).sum = val a * val b := by
    rw [← hprod, summands, List.map_map]; rfl
  rw [limbVal_replicate_zero, zero_add, hcols, ← columns] at hsum
  exact hsum

/-- `fe_mul`. -/
theorem feMul_ok {a b : Fe} (ha : Bnd (2 ^ 17 + 2 ^ 8) a) (hb : Bnd (2 ^ 17 + 2 ^ 8) b) :
    ∃ o k, feMul a b = .ok o ∧ Reduced o ∧ val o = val a * val b - (2 ^ 256 - 38) * k := by
  obtain ⟨hcols, hmem⟩ := columns_ok ha hb
  obtain ⟨o, k, ho, hbo, hvo⟩ := foldHigh_ok (length_columns a b) hmem (by decide) (by decide)
  obtain ⟨o', k', ho', hro, hvo'⟩ := feCarry_feCarry_ok (hbo.mono (by decide))
  refine ⟨o', k + k', ?_, hro, ?_⟩
  · rw [feMul, hcols, ok_bind, ho, ok_bind]
    exact ho'
  · linear_combination hvo' + hvo + val_columns ha.len hb.len

/-! ## Swapping, unpacking and packing -/

theorem toInt_ofInt64 {x : Int} (h : |x| < 2 ^ 63) : (BitVec.ofInt 64 x).toInt = x := by
  obtain ⟨h1, h2⟩ := abs_lt.mp h
  rw [BitVec.toInt_ofInt, Int.bmod_eq_of_le (by omega) (by omega)]

theorem cswapLimb_ok (swap : Bool) {x y : Int} (hx : |x| < 2 ^ 63) (hy : |y| < 2 ^ 63) :
    cswapLimb (-(BitVec.ofBool swap).setWidth 64) x y = if swap then (y, x) else (x, y) := by
  cases swap with
  | false =>
    have h0 : -(BitVec.ofBool false).setWidth 64 = (0 : BitVec 64) := by decide
    simp only [cswapLimb, h0, BitVec.ofNat_eq_ofNat, BitVec.zero_and, BitVec.xor_zero, toInt_ofInt64 hx,
      toInt_ofInt64 hy, Bool.false_eq_true, ↓reduceIte]
  | true =>
    have h1 : -(BitVec.ofBool true).setWidth 64 = BitVec.allOnes 64 := by decide
    have hxy : ∀ a b : BitVec 64, a ^^^ (a ^^^ b) = b := fun a b => by
      rw [← BitVec.xor_assoc, BitVec.xor_self, BitVec.zero_xor]
    simp only [cswapLimb, h1, BitVec.allOnes_and, hxy, ↓reduceIte, toInt_ofInt64 hy]
    rw [BitVec.xor_comm (BitVec.ofInt 64 x), hxy, toInt_ofInt64 hx]

/-- `fe_cswap` swaps. -/
theorem feCswap_ok (swap : Bool) {M : Int} {a b : Fe} (ha : Bnd M a) (hb : Bnd M b) (hM : M < 2 ^ 63) :
    feCswap swap a b = if swap then (b, a) else (a, b) := by
  have hlen := ha.len.trans hb.len.symm
  have hlimb : ∀ xy ∈ a.zip b, cswapLimb (-(BitVec.ofBool swap).setWidth 64) xy.1 xy.2 =
      if swap then (xy.2, xy.1) else (xy.1, xy.2) := fun xy hxy =>
    cswapLimb_ok swap (lt_of_le_of_lt (ha.abs_le _ (List.of_mem_zip hxy).1) hM)
      (lt_of_le_of_lt (hb.abs_le _ (List.of_mem_zip hxy).2) hM)
  have hz : ∀ f : Int → Int → Int, List.zipWith f a b = (a.zip b).map fun xy => f xy.1 xy.2 := fun f => by
    rw [List.zip_eq_zipWith, List.map_zipWith]
  simp only [feCswap, hz]
  rw [List.map_congr_left fun xy h => congrArg Prod.fst (hlimb xy h),
    List.map_congr_left fun xy h => congrArg Prod.snd (hlimb xy h)]
  have hfst : (a.zip b).map Prod.fst = a := List.map_fst_zip (by omega)
  have hsnd : (a.zip b).map Prod.snd = b := List.map_snd_zip (by omega)
  cases swap with
  | false => exact Prod.ext hfst hsnd
  | true => exact Prod.ext hsnd hfst

/-- Limb `i` of a byte string: two bytes. -/
def pairLimb (l : Bytes) (i : Nat) : Int := (l.getD (2 * i) 0).toNat + 256 * (l.getD (2 * i + 1) 0).toNat

theorem digits_pairLimb (l : Bytes) (n : Nat) : Digits (2 ^ 16) ((List.range n).map (pairLimb l)) := by
  intro x hx
  obtain ⟨i, -, rfl⟩ := List.mem_map.mp hx
  have h0 := (l.getD (2 * i) 0).isLt
  have h1 := (l.getD (2 * i + 1) 0).isLt
  rw [pairLimb]
  omega

theorem val_pairLimb : ∀ (n : Nat) (l : Bytes), l.length = 2 * n →
    val ((List.range n).map (pairLimb l)) = leNat l
  | 0, l, h => by rw [List.length_eq_zero_iff.mp h]; rfl
  | n + 1, [], h => absurd h (by simp)
  | n + 1, [_], h => absurd h (by simp only [List.length_singleton]; omega)
  | n + 1, b0 :: b1 :: l, h => by
    have ih := val_pairLimb n l (by simp only [List.length_cons] at h; omega)
    have htail : (pairLimb (b0 :: b1 :: l)) ∘ Nat.succ = pairLimb l := by
      funext i
      simp only [Function.comp, pairLimb, Nat.succ_eq_add_one, Nat.mul_add, Nat.mul_one, List.getD_cons_succ,
        show 2 * i + 2 + 1 = 2 * i + 1 + 2 by omega]
    rw [List.range_succ_eq_map, List.map_cons, List.map_map, htail]
    simp only [val, limbVal_cons] at ih ⊢
    rw [ih]
    simp only [pairLimb, Nat.mul_zero, List.getD_cons_zero, Nat.zero_add, List.getD_cons_succ, leNat]
    push_cast
    ring

/-- `fe_unpack` gives digits of the value modulo `2^255`. -/
theorem feUnpack_ok (n : BytesN 32) :
    Reduced16 (feUnpack n) ∧ val (feUnpack n) = ((leNat n.1 % 2 ^ 255 : Nat) : Int) := by
  have hv := val_pairLimb 16 n.1 n.2
  have hd := digits_pairLimb n.1 16
  have hd15 := digits_pairLimb n.1 15
  have hlow := limbVal_digits (by decide) hd15
  have hlen : ((List.range 15).map (pairLimb n.1)).length = 15 := by simp
  rw [List.range_succ, List.map_append] at hv hd
  simp only [val, limbVal_append, List.map_cons, List.map_nil, limbVal_cons, limbVal_nil, mul_zero,
    add_zero] at hv
  rw [hlen] at hlow hv
  have h15 : 0 ≤ pairLimb n.1 15 ∧ pairLimb n.1 15 < 2 ^ 16 := hd _ (by simp)
  have hun : feUnpack n = (List.range 15).map (pairLimb n.1) ++ [pairLimb n.1 15 % 2 ^ 15] := rfl
  rw [hun]
  refine ⟨⟨by simp, fun x hx => ?_⟩, ?_⟩
  · obtain hx | hx := List.mem_append.mp hx
    · exact hd15 x hx
    · rw [List.mem_singleton.mp hx]; omega
  · simp only [val, limbVal_append, limbVal_cons, limbVal_nil, mul_zero, add_zero, hlen]
    generalize limbVal (2 ^ 16) ((List.range 15).map (pairLimb n.1)) = A at hv hlow ⊢
    push_cast
    omega

/-- The limbs of the prime. -/
theorem val_pLimbs : val pLimbs = 2 ^ 255 - 19 := by decide

theorem digits_pLimbs : Digits (2 ^ 16) pLimbs := by
  unfold Digits; decide

/-- A subtraction with borrow of digits leaves digits, and the borrow is worth what is missing. -/
theorem subLoop_ok : ∀ (l m : List Int) (b : Int), l.length = m.length → Digits (2 ^ 16) l →
    Digits (2 ^ 16) m → (b = 0 ∨ b = 1) →
    ∃ d b', subLoop b (l.zip m) = .ok (d, b') ∧ d.length = l.length ∧ Digits (2 ^ 16) d ∧ (b' = 0 ∨ b' = 1) ∧
      val d - (2 ^ 16) ^ l.length * b' = val l - val m - b
  | [], m, b, h, _, _, hb => by
    rw [List.length_eq_zero_iff.mp h.symm]
    refine ⟨[], b, rfl, rfl, fun x hx => ?_, hb, ?_⟩
    · cases hx
    · simp only [val, limbVal_nil, List.length_nil, pow_zero]; ring
  | x :: l, [], _, h, _, _, _ => absurd h (by simp)
  | x :: l, y :: m, b, h, hl, hm, hb => by
    have hx := hl x List.mem_cons_self
    have hy := hm y List.mem_cons_self
    generalize hb' : (if x - y - b < 0 then (1 : Int) else 0) = b'
    have hcase : b' = 1 ∧ x - y - b < 0 ∨ b' = 0 ∧ 0 ≤ x - y - b := by
      split at hb' <;> omega
    have h1 : i64 (x - y) = .ok (x - y) := i64_ok (abs_lt.mpr ⟨by omega, by omega⟩)
    have h2 : i64 (x - y - b) = .ok (x - y - b) := i64_ok (abs_lt.mpr ⟨by omega, by omega⟩)
    have h3 : i64 (x - y - b + b' * 0x10000) = .ok (x - y - b + b' * 0x10000) :=
      i64_ok (abs_lt.mpr ⟨by omega, by omega⟩)
    obtain ⟨d, b'', hd, hlen, hdig, hb'', hval⟩ := subLoop_ok l m b' (by simpa using h)
      (fun z hz => hl z (List.mem_cons_of_mem _ hz)) (fun z hz => hm z (List.mem_cons_of_mem _ hz)) (by omega)
    refine ⟨(x - y - b + b' * 0x10000) :: d, b'', ?_, by rw [List.length_cons, hlen]; rfl, fun z hz => ?_, hb'', ?_⟩
    · simp only [List.zip_cons_cons, subLoop, h1, ok_bind, h2, hb', h3, hd]
      rfl
    · obtain rfl | hz := List.mem_cons.mp hz
      · omega
      · exact hdig z hz
    · simp only [limbVal_cons, List.length_cons, pow_succ _ l.length] at hval ⊢
      linear_combination (2 ^ 16) * hval

/-- One pass of `fe_pack`. -/
theorem trialSub_ok {t : Fe} (h : Reduced16 t) :
    ∃ o, trialSub t = .ok o ∧ Reduced16 o ∧
      val o = if val t < 2 ^ 255 - 19 then val t else val t - (2 ^ 255 - 19) := by
  obtain ⟨d, b, hd, hlen, hdig, hb, hval⟩ := subLoop_ok t pLimbs 0 h.len h.digits digits_pLimbs (.inl rfl)
  have hdv := Reduced16.val_lt ⟨hlen.trans h.len, hdig⟩
  rw [val_pLimbs, h.len, ← pow_mul] at hval
  have ht := h.val_lt
  refine ⟨if b = 0 then d else t, by simp only [trialSub, hd, ok_bind]; rfl, ?_⟩
  obtain rfl | rfl := hb
  · rw [if_pos rfl, if_neg (by omega)]
    exact ⟨⟨hlen.trans h.len, hdig⟩, by omega⟩
  · rw [if_neg (by decide), if_pos (by omega)]
    exact ⟨h, rfl⟩

/-- Carrying limbs that a product can have leaves digits. -/
theorem feCarry_reduced {l : Fe} (h : Reduced l) :
    ∃ o k, feCarry l = .ok o ∧ Reduced16 o ∧ val o = val l - (2 ^ 256 - 38) * k := by
  obtain ⟨d, c, hd, hred, -, hval⟩ := feCarry_ok (h.bnd.mono (show _ ≤ (2 : Int) ^ 55 by decide)) (by decide)
    (by decide)
  have hd0 := hred.val_lt
  obtain ⟨x, l, rfl⟩ := List.exists_cons_of_length_eq_add_one h.len
  obtain ⟨z, d, rfl⟩ := List.exists_cons_of_length_eq_add_one hred.len
  have hx := h.head
  have hz := hred.digits z List.mem_cons_self
  have hl := limbVal_digits (by decide) h.tail
  have hdl := limbVal_digits (B := 2 ^ 16) (by decide) fun y hy => hred.digits y (List.mem_cons_of_mem _ hy)
  have hlen : l.length = 15 := by simpa using h.len
  have hlen' : d.length = 15 := by simpa using hred.len
  rw [List.tail_cons, hlen, ← pow_mul] at hl
  rw [hlen', ← pow_mul] at hdl
  rw [List.getD_cons_zero] at hx
  have hval' := hval
  simp only [val, limbVal_cons] at hval hd0
  -- a carry out of 1 leaves a small value, one of -1 a value just below `2^256`
  have hc : c = -1 ∨ c = 0 ∨ c = 1 := by omega
  have hz' : 0 ≤ z + 38 * c ∧ z + 38 * c < 2 ^ 16 := by omega
  refine ⟨_, c, hd, ⟨by rw [length_addAt, hred.len], fun y hy => ?_⟩, ?_⟩
  · obtain rfl | hy := List.mem_cons.mp hy
    · exact hz'
    · exact hred.digits y (List.mem_cons_of_mem _ hy)
  · rw [val_addAt hred]
    linear_combination hval'

/-- The bytes of 16 digits are those of their value. -/
theorem leNat_limbBytes : ∀ l : List Int, Digits (2 ^ 16) l →
    (leNat (l.flatMap fun x => [BitVec.ofInt 8 x, BitVec.ofInt 8 (x / 256)]) : Int) = val l
  | [], _ => rfl
  | x :: l, h => by
    have ih := leNat_limbBytes l fun y hy => h y (List.mem_cons_of_mem _ hy)
    have hx := h x List.mem_cons_self
    simp only [val, List.flatMap_cons, List.cons_append, List.nil_append, leNat, limbVal_cons,
      BitVec.toNat_ofInt] at ih ⊢
    generalize limbVal (2 ^ 16 : Int) l = v at ih ⊢
    push_cast
    rw [ih]
    omega

/-- `fe_pack` packs the canonical representative. -/
theorem fePack_ok {l : Fe} (h : Reduced l) :
    ∃ b, fePack l = .ok b ∧ b.1 = leBytes 32 (val l % (2 ^ 255 - 19)).toNat := by
  obtain ⟨t1, k1, h1, r1, v1⟩ := feCarry_reduced h
  obtain ⟨t2, k2, h2, r2, v2⟩ := feCarry_reduced r1.reduced
  obtain ⟨t3, k3, h3, r3, v3⟩ := feCarry_reduced r2.reduced
  obtain ⟨t4, h4, r4, v4⟩ := trialSub_ok r3
  obtain ⟨t5, h5, r5, v5⟩ := trialSub_ok r4
  have hlt := r3.val_lt
  have hbytes := leNat_limbBytes t5 r5.digits
  have hlen : (t5.flatMap fun x => [BitVec.ofInt 8 x, BitVec.ofInt 8 (x / 256)]).length = 32 := by
    simp [List.length_flatMap, r5.len]
  have hv : val l % (2 ^ 255 - 19) = val t5 := by
    have h3 : val t3 = val l + (2 ^ 255 - 19) * (-2 * (k1 + k2 + k3)) := by
      linear_combination v3 + v2 + v1
    have h5 : 0 ≤ val t5 ∧ val t5 < 2 ^ 255 - 19 ∧
        (val t3 = val t5 ∨ val t3 = val t5 + (2 ^ 255 - 19) ∨ val t3 = val t5 + 2 * (2 ^ 255 - 19)) := by
      split at v4 <;> split at v5 <;> omega
    rw [show val l = val t3 + (2 ^ 255 - 19) * (2 * (k1 + k2 + k3)) by linear_combination -h3,
      Int.add_mul_emod_self_left]
    omega
  refine ⟨⟨_, hlen⟩, ?_, ?_⟩
  · simp only [fePack, h1, h2, h3, h4, h5, ok_bind]
    exact dif_pos hlen
  · rw [hv, ← hbytes, Int.toNat_natCast]
    conv_rhs => rw [← hlen]
    exact (leBytes_leNat _).symm

end ND.Proof.X25519
