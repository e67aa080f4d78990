import Mathlib.Algebra.Polynomial.Roots
import Mathlib.Combinatorics.Colex

/-!
# Hashing by polynomials

A list of coefficients is hashed by evaluating its polynomial, which has no
constant term, at a secret key. Lists without zeros have different
polynomials (`hashPoly_injOn`), and since an offset is only a constant term, two of
them have hashes with a given difference for no more keys than the longer
has coefficients (`card_le_of_eval_sub`). For one of several differences the
bounds add up (`card_le_of_eval_sub_mem`).

Keys may have some of their bits cleared: `submasks` are the numbers with bits
of a mask only.
-/

namespace ND

open Polynomial

/-! ## Polynomials of lists -/

section Ring

variable {R : Type*} [CommRing R]

/-- The first coefficient has the highest power, the last the power 1. -/
noncomputable def hashPoly : List R → R[X]
  | [] => 0
  | c :: cs => C c * X ^ (cs.length + 1) + hashPoly cs

theorem coeff_hashPoly_zero : ∀ cs : List R, (hashPoly cs).coeff 0 = 0
  | [] => coeff_zero 0
  | c :: cs => by
    rw [hashPoly, coeff_add, coeff_hashPoly_zero cs, coeff_C_mul_X_pow, if_neg (Nat.succ_ne_zero _).symm, add_zero]

theorem natDegree_hashPoly_le : ∀ cs : List R, (hashPoly cs).natDegree ≤ cs.length
  | [] => Nat.le_of_eq natDegree_zero
  | c :: cs => by
    refine (natDegree_add_le _ _).trans (Nat.max_le.mpr ⟨natDegree_C_mul_X_pow_le _ _, ?_⟩)
    exact (natDegree_hashPoly_le cs).trans (Nat.le_succ _)

theorem coeff_hashPoly_of_lt {cs : List R} {n : Nat} (h : cs.length < n) : (hashPoly cs).coeff n = 0 :=
  coeff_eq_zero_of_natDegree_lt ((natDegree_hashPoly_le cs).trans_lt h)

/-- The first coefficient can be read off. -/
theorem coeff_hashPoly_cons (c : R) (cs : List R) : (hashPoly (c :: cs)).coeff (cs.length + 1) = c := by
  rw [hashPoly, coeff_add, coeff_hashPoly_of_lt (Nat.lt_succ_self _), coeff_C_mul_X_pow, if_pos rfl, add_zero]

/-- Without zeros, the length can be read off too. -/
theorem length_le_of_hashPoly_eq {cs ds : List R} (hcs : ∀ c ∈ cs, c ≠ 0) (h : hashPoly cs = hashPoly ds) :
    cs.length ≤ ds.length := by
  rcases cs with _ | ⟨c, cs⟩
  · exact Nat.zero_le _
  · refine not_lt.mp fun hlt => hcs c List.mem_cons_self ?_
    rw [← coeff_hashPoly_cons c cs, h]
    exact coeff_hashPoly_of_lt hlt

theorem hashPoly_inj {cs ds : List R} (hlen : cs.length = ds.length) (h : hashPoly cs = hashPoly ds) : cs = ds := by
  induction cs generalizing ds with
  | nil => exact (List.length_eq_zero_iff.mp hlen.symm).symm
  | cons c cs ih =>
    rcases ds with _ | ⟨d, ds⟩
    · cases hlen
    · have hlen' : cs.length = ds.length := Nat.succ.inj hlen
      have hhead : c = d := by rw [← coeff_hashPoly_cons c cs, h, hlen', coeff_hashPoly_cons]
      subst hhead
      rw [hashPoly, hashPoly, hlen', add_right_inj] at h
      rw [ih hlen' h]

theorem hashPoly_injOn {cs ds : List R} (hcs : ∀ c ∈ cs, c ≠ 0) (hds : ∀ d ∈ ds, d ≠ 0) (h : hashPoly cs = hashPoly ds) :
    cs = ds :=
  hashPoly_inj (Nat.le_antisymm (length_le_of_hashPoly_eq hcs h) (length_le_of_hashPoly_eq hds h.symm)) h

/-- An offset does not make the difference of two polynomials zero. -/
theorem hashPoly_sub_ne_C {cs ds : List R} (hcs : ∀ c ∈ cs, c ≠ 0) (hds : ∀ d ∈ ds, d ≠ 0) (hne : cs ≠ ds) (δ : R) :
    hashPoly cs - hashPoly ds - C δ ≠ 0 := by
  intro h
  have hδ : δ = 0 := by
    have h0 := congrArg (coeff · 0) h
    simpa only [coeff_sub, coeff_hashPoly_zero, coeff_C_zero, coeff_zero, sub_zero, zero_sub, neg_eq_zero] using h0
  rw [hδ, C_0, sub_zero, sub_eq_zero] at h
  exact hne (hashPoly_injOn hcs hds h)

end Ring

/-! ## Colliding keys -/

section Domain

variable {R : Type*} [CommRing R] [IsDomain R] {cs ds : List R}

theorem card_le_of_eval_sub (hcs : ∀ c ∈ cs, c ≠ 0) (hds : ∀ d ∈ ds, d ≠ 0) (hne : cs ≠ ds) {δ : R} {keys : Finset R}
    (h : ∀ r ∈ keys, (hashPoly cs).eval r - (hashPoly ds).eval r = δ) : keys.card ≤ max cs.length ds.length := by
  have hroots : keys.val ⊆ (hashPoly cs - hashPoly ds - C δ).roots := by
    intro r hr
    rw [mem_roots (hashPoly_sub_ne_C hcs hds hne δ), IsRoot.def, eval_sub, eval_sub, eval_C, h r hr, sub_self]
  calc keys.card ≤ (hashPoly cs - hashPoly ds - C δ).natDegree := card_le_degree_of_subset_roots hroots
    _ ≤ (hashPoly cs - hashPoly ds).natDegree := natDegree_sub_C.le
    _ ≤ max (hashPoly cs).natDegree (hashPoly ds).natDegree := natDegree_sub_le _ _
    _ ≤ max cs.length ds.length := max_le_max (natDegree_hashPoly_le cs) (natDegree_hashPoly_le ds)

theorem card_le_of_eval_sub_mem [DecidableEq R] (hcs : ∀ c ∈ cs, c ≠ 0) (hds : ∀ d ∈ ds, d ≠ 0) (hne : cs ≠ ds)
    {offsets keys : Finset R} (h : ∀ r ∈ keys, (hashPoly cs).eval r - (hashPoly ds).eval r ∈ offsets) :
    keys.card ≤ max cs.length ds.length * offsets.card :=
  Finset.card_le_mul_card_image_of_maps_to h _ fun _ _ =>
    card_le_of_eval_sub hcs hds hne fun _ hr => (Finset.mem_filter.mp hr).2

end Domain

/-! ## Keys with cleared bits -/

/-- The numbers below `2^w` that have bits of `m` only. -/
def submasks (w m : Nat) : Finset Nat :=
  ((Finset.range w).filter fun i => m.testBit i).powerset.map Finset.equivBitIndices.symm.toEmbedding

theorem card_submasks (w m : Nat) : (submasks w m).card = 2 ^ ((Finset.range w).filter fun i => m.testBit i).card := by
  rw [submasks, Finset.card_map, Finset.card_powerset]

theorem mem_submasks {w m n : Nat} (hm : m < 2 ^ w) : n ∈ submasks w m ↔ n &&& m = n := by
  have hbits : n ∈ submasks w m ↔ ∀ i, n.testBit i = true → i < w ∧ m.testBit i = true := by
    simp only [submasks, Finset.mem_map_equiv, Equiv.symm_symm, Finset.mem_powerset, Finset.subset_iff, Finset.mem_filter,
      Finset.mem_range, Finset.equivBitIndices_apply, List.mem_toFinset, Nat.mem_bitIndices]
  rw [hbits]
  constructor
  · intro h
    refine Nat.eq_of_testBit_eq fun i => ?_
    rw [Nat.testBit_and]
    cases hi : n.testBit i with
    | false => rfl
    | true => rw [(h i hi).2]; rfl
  · intro h i hi
    have hmi : m.testBit i = true := by
      rw [← h, Nat.testBit_and, Bool.and_eq_true] at hi
      exact hi.2
    refine ⟨not_le.mp fun hle => ?_, hmi⟩
    rw [Nat.testBit_lt_two_pow (hm.trans_le (Nat.pow_le_pow_right (by decide) hle))] at hmi
    cases hmi

end ND
