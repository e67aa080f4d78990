import NanoDtls.Framework.Montgomery
import Mathlib.FieldTheory.Finite.Basic
import Mathlib.Data.Set.Card
import Mathlib.GroupTheory.OrderOfElement

/-!
# A curve over a finite field and its twist

The points of `y² = x³ + A x² + x` with coefficients in a finite field `F` and
coordinates in an algebraically closed field `K`. The map of Frobenius on
these (`frobenius`) is a homomorphism; it fixes the points of the curve over
`F` (`rational`) and negates the points of its twist (`twisted`). Every element
of `F` is the x-coordinate of points of one or the other
(`frobenius_eq_or_eq_neg`), and if the curve has one point of order 2 over `F` then
the two groups have `2 q + 2` elements together, where `F` has `q`
(`card_rational_add_card_twisted`).
-/

namespace ND

open WeierstrassCurve.Affine

/-! ## Maps of points -/

section Map

variable {F L M : Type*} [Field F] [Field L] [Field M] [Algebra F L] [Algebra F M] (A : F)

theorem baseChange_montgomery : (montgomery A).baseChange L = montgomery (algebraMap F L A) := by
  change (montgomery A).map (algebraMap F L) = _
  simp only [montgomery, WeierstrassCurve.map, map_zero, map_one]

/-- A homomorphism of the fields of coordinates gives one of the points. -/
theorem exists_pointMap [DecidableEq L] [DecidableEq M] (f : L →ₐ[F] M) :
    ∃ φ : (montgomery (algebraMap F L A)).Point →+ (montgomery (algebraMap F M A)).Point,
      ∀ x y h, ∃ h', φ (.some x y h) = .some (f x) (f y) h' := by
  have hmap : ∀ (C : WeierstrassCurve.Affine L) (D : WeierstrassCurve.Affine M), (montgomery A).baseChange L = C →
      (montgomery A).baseChange M = D → ∃ φ : C.Point →+ D.Point, ∀ x y h, ∃ h', φ (.some x y h) = .some (f x) (f y) h' := by
    rintro _ _ rfl rfl
    exact ⟨Point.map f, fun x y h => ⟨_, Point.map_some f h⟩⟩
  exact hmap _ _ (baseChange_montgomery A) (baseChange_montgomery A)

end Map

/-! ## Frobenius -/

section Frobenius

variable {F K : Type*} [Field F] [Fintype F] [Field K] [Algebra F K] [DecidableEq K] (A : F)

noncomputable def frobenius : (montgomery (algebraMap F K A)).Point →+ (montgomery (algebraMap F K A)).Point :=
  (exists_pointMap A (FiniteField.frobeniusAlgHom F K)).choose

variable {A}

theorem frobenius_some (x y : K) (h : (montgomery (algebraMap F K A)).Nonsingular x y) :
    ∃ h', frobenius A (.some x y h) = .some (x ^ Fintype.card F) (y ^ Fintype.card F) h' :=
  (exists_pointMap A (FiniteField.frobeniusAlgHom F K)).choose_spec x y h

theorem x0_frobenius (P : (montgomery (algebraMap F K A)).Point) : x0 (frobenius A P) = x0 P ^ Fintype.card F := by
  cases P with
  | zero =>
    rw [show (Point.zero : (montgomery (algebraMap F K A)).Point) = 0 from rfl, map_zero]
    exact (zero_pow Fintype.card_pos.ne').symm
  | some x y h =>
    obtain ⟨h', hP⟩ := frobenius_some x y h
    rw [hP]
    rfl

/-- The elements of `F` are the fixed ones. -/
theorem pow_card_eq_self_iff {z : K} : z ^ Fintype.card F = z ↔ ∃ x : F, algebraMap F K x = z := by
  classical
  constructor
  · intro hz
    by_contra hnot
    -- with `z` the polynomial `X ^ q - X` would have too many roots
    have hroots : (insert z (Finset.univ.image (algebraMap F K))).val ⊆
        (Polynomial.X ^ Fintype.card F - Polynomial.X : Polynomial K).roots := by
      intro w hw
      rw [Polynomial.mem_roots (FiniteField.X_pow_card_sub_X_ne_zero K Fintype.one_lt_card), Polynomial.IsRoot.def,
        Polynomial.eval_sub, Polynomial.eval_pow, Polynomial.eval_X, sub_eq_zero]
      rcases Finset.mem_insert.mp hw with rfl | hw
      · exact hz
      · obtain ⟨x, -, rfl⟩ := Finset.mem_image.mp hw
        rw [← map_pow, FiniteField.pow_card]
    have hcard := Polynomial.card_le_degree_of_subset_roots hroots
    rw [FiniteField.X_pow_card_sub_X_natDegree_eq K Fintype.one_lt_card, Finset.card_insert_of_notMem,
      Finset.card_image_of_injective _ (algebraMap F K).injective, Finset.card_univ] at hcard
    · exact Nat.not_succ_le_self _ hcard
    · rw [Finset.mem_image]
      rintro ⟨x, -, hx⟩
      exact hnot ⟨x, hx⟩
  · rintro ⟨x, rfl⟩
    rw [← map_pow, FiniteField.pow_card]

variable (A K) in
/-- The points of the curve over `F`. -/
noncomputable def rational : AddSubgroup (montgomery (algebraMap F K A)).Point := (frobenius A).eqLocus (AddMonoidHom.id _)

variable (A K) in
/-- The points of the twist. -/
noncomputable def twisted : AddSubgroup (montgomery (algebraMap F K A)).Point := (frobenius A).eqLocus (-AddMonoidHom.id _)

variable {P : (montgomery (algebraMap F K A)).Point}

theorem mem_rational : P ∈ rational K A ↔ frobenius A P = P := Iff.rfl

theorem mem_twisted : P ∈ twisted K A ↔ frobenius A P = -P := Iff.rfl

/-- Points with coordinates in `F`. -/
theorem some_mem_rational (x y : F) (h : (montgomery (algebraMap F K A)).Nonsingular (algebraMap F K x) (algebraMap F K y)) :
    .some _ _ h ∈ rational K A := by
  obtain ⟨h', hfrob⟩ := frobenius_some _ _ h
  rw [mem_rational, hfrob, Point.some.injEq]
  exact ⟨pow_card_eq_self_iff.mpr ⟨x, rfl⟩, pow_card_eq_self_iff.mpr ⟨y, rfl⟩⟩

theorem frobenius_eq_or_eq_neg {x : F} (hP : x0 P = algebraMap F K x) : frobenius A P = P ∨ frobenius A P = -P := by
  cases P with
  | zero => exact .inl (map_zero _)
  | some u v h =>
    obtain ⟨h', hfrob⟩ := frobenius_some u v h
    rw [← x0_eq_iff (by rw [hfrob]; exact Point.some_ne_zero _) (Point.some_ne_zero _), x0_frobenius]
    exact pow_card_eq_self_iff.mpr ⟨x, hP.symm⟩

/-- The points of the curve and of its twist are those with a coordinate in `F`. -/
theorem mem_rational_or_mem_twisted : P ∈ rational K A ∨ P ∈ twisted K A ↔ ∃ x : F, algebraMap F K x = x0 P := by
  rw [mem_rational, mem_twisted]
  constructor
  · intro h
    rw [← pow_card_eq_self_iff, ← x0_frobenius]
    rcases h with h | h
    · rw [h]
    · rw [h, x0_neg]
  · rintro ⟨x, hx⟩
    exact frobenius_eq_or_eq_neg hx.symm

end Frobenius

/-! ## The number of points -/

section Count

variable {F K : Type*} [Field F] [Field K] [Algebra F K] {A : F}
  (h2 : (2 : K) ≠ 0) (hA : algebraMap F K A ^ 2 ≠ 4) (hroot : ∀ x : F, x ^ 2 + A * x + 1 ≠ 0)

/-- The point of order 2. -/
def origin : (montgomery (algebraMap F K A)).Point :=
  .some 0 0 (montgomery_nonsingular h2 hA (montgomery_equation.mpr (by ring)))

theorem origin_ne_zero : origin h2 hA ≠ 0 := Point.some_ne_zero _

theorem x0_eq_zero_iff {P : (montgomery (algebraMap F K A)).Point} : x0 P = 0 ↔ P = 0 ∨ P = origin h2 hA := by
  cases P with
  | zero => exact iff_of_true rfl (.inl rfl)
  | some x y h =>
    rw [or_iff_right (Point.some_ne_zero _), origin, Point.some.injEq]
    constructor
    · rintro (rfl : x = 0)
      have hy := montgomery_equation.mp h.1
      exact ⟨rfl, pow_eq_zero_iff two_ne_zero |>.mp (by linear_combination hy)⟩
    · exact fun hxy => hxy.1

include h2 hroot in
/-- Over `F` there are no other points of order 2. -/
theorem x0_eq_zero_of_eq_neg {P : (montgomery (algebraMap F K A)).Point} {x : F} (hP : x0 P = algebraMap F K x) (h : P = -P) :
    x0 P = 0 := by
  cases P with
  | zero => rfl
  | some u v hns =>
    obtain rfl : u = algebraMap F K x := hP
    rw [Point.neg_some, Point.some.injEq, montgomery_negY] at h
    have hv : v = 0 := (mul_eq_zero.mp (by linear_combination h.2 : 2 * v = 0)).resolve_left h2
    have hy := montgomery_equation.mp hns.1
    have hzero : algebraMap F K (x * (x ^ 2 + A * x + 1)) = 0 := by
      rw [map_mul, map_add, map_add, map_pow, map_mul, map_one]
      rw [hv] at hy
      linear_combination -hy
    rw [map_eq_zero, mul_eq_zero, or_iff_left (hroot x)] at hzero
    exact (congrArg (algebraMap F K) hzero).trans (map_zero _)

section Groups

variable [Fintype F] [DecidableEq K]

theorem union_eq : (rational K A : Set (montgomery (algebraMap F K A)).Point) ∪ twisted K A = {P | ∃ x : F, algebraMap F K x = x0 P} :=
  Set.ext fun _ => mem_rational_or_mem_twisted

include hroot in
theorem inter_eq : (rational K A : Set _) ∩ twisted K A = {0, origin h2 hA} := by
  ext P
  rw [Set.mem_insert_iff, Set.mem_singleton_iff, ← x0_eq_zero_iff h2 hA]
  constructor
  · rintro ⟨hrational, htwisted⟩
    obtain ⟨x, hx⟩ := mem_rational_or_mem_twisted.mp (.inl hrational)
    exact x0_eq_zero_of_eq_neg h2 hroot hx.symm ((mem_rational.mp hrational).symm.trans (mem_twisted.mp htwisted))
  · intro hP
    have hneg : -P = P := by rw [neg_eq_iff_add_eq_zero, add_self_of_x0_eq_zero hP]
    have hfixed := frobenius_eq_or_eq_neg (P := P) (x := 0) (by rw [hP, map_zero])
    rw [hneg, or_self] at hfixed
    exact ⟨hfixed, hfixed.trans hneg.symm⟩

end Groups

variable [IsAlgClosed K]

/-- For each element of `F` the two points with this coordinate. -/
noncomputable def pointOf (i : F × Bool) : (montgomery (algebraMap F K A)).Point :=
  open Classical in
  if i.1 = 0 then if i.2 then origin h2 hA else 0
  else if i.2 then -(exists_x0_eq h2 hA (algebraMap F K i.1)).choose else (exists_x0_eq h2 hA (algebraMap F K i.1)).choose

theorem x0_pointOf (i : F × Bool) : x0 (pointOf h2 hA i) = algebraMap F K i.1 := by
  have hchoose := (exists_x0_eq h2 hA (algebraMap F K i.1)).choose_spec
  rw [pointOf]
  split
  next h0 =>
    rw [h0, map_zero, x0_eq_zero_iff h2 hA]
    split
    · exact .inr rfl
    · exact .inl rfl
  next h0 =>
    split
    · rw [x0_neg, hchoose]
    · exact hchoose

include hroot in
theorem pointOf_injective : Function.Injective (pointOf h2 hA : F × Bool → (montgomery (algebraMap F K A)).Point) := by
  rintro ⟨x, b⟩ ⟨x', b'⟩ h
  have hx : x = x' := by
    have hx0 := congrArg x0 h
    rw [x0_pointOf, x0_pointOf] at hx0
    exact (algebraMap F K).injective hx0
  subst hx
  have hne : pointOf h2 hA (x, true) ≠ pointOf h2 hA (x, false) := by
    intro heq
    by_cases h0 : x = 0
    · simp only [pointOf, if_pos h0, if_true, Bool.false_eq_true, if_false] at heq
      exact origin_ne_zero h2 hA heq
    · have hx0 := x0_pointOf h2 hA (x, false)
      simp only [pointOf, if_neg h0, if_true, Bool.false_eq_true, if_false] at heq hx0
      rw [x0_eq_zero_of_eq_neg h2 hroot hx0 heq.symm] at hx0
      exact h0 ((map_eq_zero _).mp hx0.symm)
  cases b <;> cases b'
  · rfl
  · exact absurd h.symm hne
  · exact absurd h hne
  · rfl

theorem range_pointOf : Set.range (pointOf h2 hA) = {P | ∃ x : F, algebraMap F K x = x0 P} := by
  ext P
  constructor
  · rintro ⟨i, rfl⟩
    exact ⟨i.1, (x0_pointOf h2 hA i).symm⟩
  · rintro ⟨x, hx⟩
    by_cases h0 : x = 0
    · rw [h0, map_zero, eq_comm, x0_eq_zero_iff h2 hA] at hx
      rcases hx with rfl | rfl
      · exact ⟨(0, false), by simp only [pointOf, if_true, Bool.false_eq_true, if_false]⟩
      · exact ⟨(0, true), by simp only [pointOf, if_true]⟩
    · have hchoose := (exists_x0_eq h2 hA (algebraMap F K x)).choose_spec
      have hne : ∀ Q : (montgomery (algebraMap F K A)).Point, x0 Q = algebraMap F K x → Q ≠ 0 := by
        rintro Q hQ rfl
        exact h0 ((map_eq_zero _).mp hQ.symm)
      rcases (x0_eq_iff (hne P hx.symm) (hne _ hchoose)).mp (hx.symm.trans hchoose.symm) with hP | hP
      · exact ⟨(x, false), by simp only [pointOf, if_neg h0, Bool.false_eq_true, if_false, hP]⟩
      · exact ⟨(x, true), by simp only [pointOf, if_neg h0, if_true, hP]⟩

variable [Fintype F]

include h2 hA in
theorem finite_coordinates : {P : (montgomery (algebraMap F K A)).Point | ∃ x : F, algebraMap F K x = x0 P}.Finite :=
  range_pointOf h2 hA ▸ Set.finite_range _

include h2 hA hroot in
theorem ncard_coordinates : {P : (montgomery (algebraMap F K A)).Point | ∃ x : F, algebraMap F K x = x0 P}.ncard =
    2 * Fintype.card F := by
  rw [← range_pointOf h2 hA, ← Nat.card_coe_set_eq, Nat.card_range_of_injective (pointOf_injective h2 hA hroot),
    Nat.card_prod, Nat.card_eq_fintype_card, Nat.card_eq_fintype_card, Fintype.card_bool, Nat.mul_comm]

variable [DecidableEq K]

include h2 hA hroot in
theorem card_rational_add_card_twisted : Nat.card (rational K A) + Nat.card (twisted K A) = 2 * Fintype.card F + 2 := by
  have hfinite := finite_coordinates (F := F) h2 hA
  rw [← union_eq, Set.finite_union] at hfinite
  have hcount := Set.ncard_union_add_ncard_inter _ _ hfinite.1 hfinite.2
  rw [union_eq, ncard_coordinates h2 hA hroot, inter_eq h2 hA hroot, Set.ncard_pair (origin_ne_zero h2 hA).symm] at hcount
  exact hcount.symm

include h2 hA in
theorem card_rational_pos : 0 < Nat.card (rational K A) := by
  have hfinite := finite_coordinates (F := F) h2 hA
  rw [← union_eq, Set.finite_union] at hfinite
  have := hfinite.1.to_subtype
  exact Nat.card_pos

include h2 hA hroot in
theorem card_rational_le : Nat.card (rational K A) ≤ 2 * Fintype.card F := by
  have hfinite := finite_coordinates (F := F) h2 hA
  rw [← union_eq] at hfinite
  rw [← ncard_coordinates h2 hA hroot, ← union_eq]
  exact Set.ncard_le_ncard Set.subset_union_left hfinite

end Count

end ND
