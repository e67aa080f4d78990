import Mathlib.Algebra.BigOperators.Group.List.Basic
import Mathlib.Algebra.BigOperators.Ring.List
import Mathlib.Algebra.Ring.Int.Defs
import Mathlib.Tactic.Ring
import Mathlib.Tactic.Linarith

/-!
# Numbers in limbs

A list of limbs in radix `B`, least significant first, has the value
`limbVal B l`. The limbs are elements of any commutative semiring, so the same
lemmas serve signed limbs that are only loosely reduced and unsigned digits.
`limbVal_addAt` and `limbVal_addAll` are what an accumulation into single
limbs does to the value, `sum_products` says that the columns of a schoolbook
product add up to the product, and `limbVal_digits` bounds the value of
digits.
-/

namespace ND

section Semiring

variable {R : Type _} [CommSemiring R] (B : R)

/-- The value of the limbs `l`, least significant first. -/
def limbVal : List R → R
  | [] => 0
  | x :: l => x + B * limbVal l

@[simp] theorem limbVal_nil : limbVal B [] = 0 := rfl

@[simp] theorem limbVal_cons (x : R) (l : List R) : limbVal B (x :: l) = x + B * limbVal B l := rfl

theorem limbVal_append (l m : List R) : limbVal B (l ++ m) = limbVal B l + B ^ l.length * limbVal B m := by
  induction l with
  | nil => simp
  | cons x l ih => rw [List.cons_append, limbVal_cons, limbVal_cons, ih, List.length_cons]; ring

theorem limbVal_replicate_zero : ∀ n : Nat, limbVal B (List.replicate n 0) = 0
  | 0 => rfl
  | n + 1 => by rw [List.replicate_succ, limbVal_cons, limbVal_replicate_zero n, mul_zero, add_zero]

/-- Limb by limb addition. -/
theorem limbVal_zipWith_add : ∀ l m : List R, l.length = m.length →
    limbVal B (List.zipWith (· + ·) l m) = limbVal B l + limbVal B m
  | [], [], _ => by simp
  | [], _ :: _, h => absurd h (by simp)
  | _ :: _, [], h => absurd h (by simp)
  | x :: l, y :: m, h => by
    rw [List.zipWith_cons_cons, limbVal_cons, limbVal_zipWith_add l m (by simpa using h), limbVal_cons,
      limbVal_cons]
    ring

theorem limbVal_map_mul (c : R) : ∀ l : List R, limbVal B (l.map (c * ·)) = c * limbVal B l
  | [] => by simp
  | x :: l => by rw [List.map_cons, limbVal_cons, limbVal_map_mul c l, limbVal_cons]; ring

/-- The list `l` with `d` added to limb `k`. -/
def addAt (l : List R) (k : Nat) (d : R) : List R := l.set k (l.getD k 0 + d)

@[simp] theorem length_addAt (l : List R) (k : Nat) (d : R) : (addAt l k d).length = l.length :=
  List.length_set

theorem limbVal_addAt : ∀ (l : List R) (k : Nat) (d : R), k < l.length →
    limbVal B (addAt l k d) = limbVal B l + B ^ k * d
  | [], _, _, h => absurd h (by simp)
  | x :: l, 0, d, _ => by simp [addAt]; ring
  | x :: l, k + 1, d, h => by
    have ih := limbVal_addAt l k d (by simpa using h)
    simp only [addAt, List.getD_cons_succ, List.set_cons_succ, limbVal_cons] at ih ⊢
    rw [ih]; ring

/-- Many additions into limbs, each a position and a summand. -/
def addAll (t : List R) (ps : List (Nat × R)) : List R := ps.foldl (fun t p => addAt t p.1 p.2) t

theorem length_addAll : ∀ (ps : List (Nat × R)) (t : List R), (addAll t ps).length = t.length
  | [], _ => rfl
  | p :: ps, t => by rw [addAll, List.foldl_cons, ← addAll, length_addAll ps, length_addAt]

theorem limbVal_addAll : ∀ (ps : List (Nat × R)) (t : List R), (∀ p ∈ ps, p.1 < t.length) →
    limbVal B (addAll t ps) = limbVal B t + (ps.map fun p => B ^ p.1 * p.2).sum
  | [], t, _ => by simp [addAll]
  | p :: ps, t, h => by
    rw [addAll, List.foldl_cons, ← addAll, limbVal_addAll ps _ fun q hq => ?_,
      limbVal_addAt B t p.1 p.2 (h p List.mem_cons_self), List.map_cons, List.sum_cons, add_assoc]
    rw [length_addAt]
    exact h q (List.mem_cons_of_mem _ hq)

theorem getD_addAt {l : List R} {k : Nat} (hk : k < l.length) (i : Nat) (d : R) :
    (addAt l i d).getD k 0 = l.getD k 0 + if i = k then d else 0 := by
  by_cases hik : i = k
  · rw [if_pos hik, hik, addAt, List.getD_eq_getElem?_getD, List.getElem?_set_self hk]
    rfl
  · rw [if_neg hik, add_zero, addAt, List.getD_eq_getElem?_getD, List.getElem?_set_ne hik, List.getD_eq_getElem?_getD]

/-- A limb after many additions: it gets the summands of its position. -/
theorem getD_addAll {k : Nat} : ∀ (ps : List (Nat × R)) {t : List R}, k < t.length →
    (addAll t ps).getD k 0 = t.getD k 0 + ((ps.filter fun p => p.1 = k).map Prod.snd).sum
  | [], t, _ => by simp [addAll]
  | p :: ps, t, hk => by
    rw [addAll, List.foldl_cons, ← addAll, getD_addAll ps (by rwa [length_addAt]), getD_addAt hk, List.filter_cons]
    by_cases hp : p.1 = k
    · rw [if_pos hp, if_pos (decide_eq_true hp), List.map_cons, List.sum_cons, add_assoc]
    · rw [if_neg hp, if_neg (by simpa using hp), add_zero]

theorem sum_limbs : ∀ l : List R, ((List.range l.length).map fun i => B ^ i * l.getD i 0).sum = limbVal B l
  | [] => rfl
  | x :: l => by
    rw [List.length_cons, List.range_succ_eq_map, List.map_cons, List.sum_cons, List.map_map, limbVal_cons,
      ← sum_limbs l, ← List.sum_map_mul_left]
    simp only [pow_zero, List.getD_cons_zero, one_mul]
    congr 1
    refine congrArg List.sum (List.map_congr_left fun i _ => ?_)
    simp only [Function.comp, Nat.succ_eq_add_one, List.getD_cons_succ, pow_succ]
    ring

/-- The columns of a schoolbook product. -/
theorem sum_products (a b : List R) :
    (((List.range a.length).flatMap fun i => (List.range b.length).map fun j => (i, j)).map
      fun p => B ^ (p.1 + p.2) * (a.getD p.1 0 * b.getD p.2 0)).sum = limbVal B a * limbVal B b := by
  rw [List.map_flatMap, List.flatMap_def, List.sum_flatten, List.map_map, ← sum_limbs B a,
    ← List.sum_map_mul_right]
  refine congrArg List.sum (List.map_congr_left fun i _ => ?_)
  simp only [Function.comp]
  rw [← sum_limbs B b, ← List.sum_map_mul_left, List.map_map]
  refine congrArg List.sum (List.map_congr_left fun j _ => ?_)
  simp only [Function.comp, pow_add]
  ring

end Semiring

/-! ## Digits -/

/-- Every limb is a digit. -/
def Digits (B : Int) (l : List Int) : Prop := ∀ x ∈ l, 0 ≤ x ∧ x < B

theorem limbVal_digits {B : Int} (hB : 0 < B) : ∀ {l : List Int}, Digits B l →
    0 ≤ limbVal B l ∧ limbVal B l < B ^ l.length
  | [], _ => by simp
  | x :: l, h => by
    obtain ⟨hx, hxB⟩ := h x List.mem_cons_self
    obtain ⟨h0, h1⟩ := limbVal_digits hB fun y hy => h y (List.mem_cons_of_mem _ hy)
    rw [limbVal_cons, List.length_cons, pow_succ]
    constructor
    · positivity
    · nlinarith

end ND
