import NanoDtls.Proof.X25519.Agreement
import Mathlib.FieldTheory.IsAlgClosed.AlgebraicClosure

/-!
# X25519 on all coordinates

Half of the coordinates are of no point of Curve25519 over the prime field but
of one of its twist, and `nd_x25519_scalarmult` does not tell them apart. Over
the algebraic closure each coordinate has a point, and the ladder computes in
the prime field what it computes there (`ladder_map`). So for all `u` the
function is the multiplication of a point (`xmult_eq`), and two of them commute
(`scalarmult_comm`).
-/

namespace ND.Proof.X25519

open ND.Impl ND.Impl.X25519
open ND.Spec.X25519 (p cswap ladderRun ladder decodeScalar25519 decodeUCoordinate)
open WeierstrassCurve.Affine (Point)

/-! ## The ladder in an extension -/

section Map

variable {F K : Type _} [CommRing F] [CommRing K] (φ : F →+* K)

def mapLadder (s : Spec.X25519.Ladder F) : Spec.X25519.Ladder K := ⟨φ s.x2, φ s.z2, φ s.x3, φ s.z3, s.swap⟩

theorem cswap_map (b : Bool) (x y : F) : cswap b (φ x) (φ y) = (φ (cswap b x y).1, φ (cswap b x y).2) := by
  cases b <;> rfl

theorem ladderStep_map (u : F) (k : Nat) (s : Spec.X25519.Ladder F) (t : Nat) :
    Spec.X25519.ladderStep (φ u) k (mapLadder φ s) t = mapLadder φ (Spec.X25519.ladderStep u k s t) := by
  simp only [Spec.X25519.ladderStep, mapLadder, cswap_map, map_add, map_sub, map_mul, map_pow, map_ofNat]

theorem ladderRun_map (k : Nat) (u : F) : ladderRun k (φ u) = mapLadder φ (ladderRun k u) := by
  have hfold : ∀ (l : List Nat) (s : Spec.X25519.Ladder F), l.foldl (Spec.X25519.ladderStep (φ u) k) (mapLadder φ s) =
      mapLadder φ (l.foldl (Spec.X25519.ladderStep u k) s) := by
    intro l
    induction l with
    | nil => exact fun s => rfl
    | cons t l ih =>
      intro s
      rw [List.foldl_cons, List.foldl_cons, ladderStep_map, ih]
  rw [ladderRun, ladderRun, ← hfold]
  simp only [mapLadder, map_one, map_zero]

theorem ladder_map (k : Nat) (u : F) : ladder k (φ u) = (φ (ladder k u).1, φ (ladder k u).2) := by
  simp only [ladder, ladderRun_map, mapLadder, cswap_map]

end Map

/-! ## The points -/

/-- Where every coordinate has a point. -/
abbrev K25519 := AlgebraicClosure F25519

noncomputable instance : DecidableEq K25519 := Classical.decEq _

/-- Curve25519 with its points in the closure. -/
noncomputable abbrev Curve := montgomery (algebraMap F25519 K25519 coeffA)

theorem coeff_eq : algebraMap F25519 K25519 coeffA = 486662 := map_ofNat _ 486662

theorem two_ne_zero_closure : (2 : K25519) ≠ 0 := by
  rw [← map_ofNat (algebraMap F25519 K25519) 2, map_ne_zero]
  exact two_ne_zero'

theorem coeff_sq_ne_four : algebraMap F25519 K25519 coeffA ^ 2 ≠ 4 := by
  rw [← map_ofNat (algebraMap F25519 K25519) 4, ← map_pow]
  exact fun h => coeffA_sq_ne_four ((algebraMap F25519 K25519).injective h)

/-- A point with a given coordinate. -/
theorem exists_point (u : F25519) : ∃ P : Curve.Point, x0 P = algebraMap F25519 K25519 u :=
  exists_x0_eq two_ne_zero_closure coeff_sq_ne_four _

/-- What X25519 computes, on elements of the field. -/
def xmult (k : Nat) (u : F25519) : F25519 := (ladder k u).1 * (ladder k u).2 ^ (p - 2)

theorem xmult_eq {k : Nat} (hk : k < 2 ^ 255) {u : F25519} {P : Curve.Point} (hP : x0 P = algebraMap F25519 K25519 u) :
    x0 (k • P) = algebraMap F25519 K25519 (xmult k u) := by
  rw [← ladder_div two_ne_zero_closure coeff_sq_ne_four coeff_eq P hk, hP, ladder_map, xmult, pow_sub_two, map_mul, map_inv₀,
    div_eq_mul_inv]

theorem xmult_comm {j k : Nat} (hj : j < 2 ^ 255) (hk : k < 2 ^ 255) (u : F25519) :
    xmult j (xmult k u) = xmult k (xmult j u) := by
  obtain ⟨P, hP⟩ := exists_point u
  apply (algebraMap F25519 K25519).injective
  rw [← xmult_eq hj (xmult_eq hk hP), ← xmult_eq hk (xmult_eq hj hP), ← mul_nsmul, ← mul_nsmul, Nat.mul_comm]

/-! ## The bytes -/

theorem x25519_eq_xmult (k u : BytesN 32) : Spec.X25519.x25519 k u =
    ⟨leBytes 32 (xmult (decodeScalar25519 k) (decodeUCoordinate u)).val, by simp⟩ := rfl

theorem decode_leBytes (v : F25519) : decodeUCoordinate ⟨leBytes 32 v.val, by simp⟩ = v := by
  have hlt : v.val < 2 ^ 255 := (ZMod.val_lt v).trans (by decide)
  rw [decodeUCoordinate, leNat_leBytes, Nat.mod_eq_of_lt (hlt.trans (by decide)), Nat.mod_eq_of_lt hlt, ZMod.natCast_zmod_val]

theorem x25519_comm (a b u : BytesN 32) :
    Spec.X25519.x25519 a (Spec.X25519.x25519 b u) = Spec.X25519.x25519 b (Spec.X25519.x25519 a u) := by
  simp only [x25519_eq_xmult, decode_leBytes, xmult_comm (decodeScalar_lt a) (decodeScalar_lt b)]

/-- For all scalars and all 32 bytes `u`, of a point of the curve or of its twist, canonical or not:
`nd_x25519_scalarmult` by `a` after `b` gives the bytes that it gives by `b` after `a`. -/
theorem scalarmult_comm (a b u : BytesN 32) :
    ∃ ua ub w, x25519Scalarmult a u = .ok ua ∧ x25519Scalarmult b u = .ok ub ∧
      x25519Scalarmult a ub = .ok w ∧ x25519Scalarmult b ua = .ok w := by
  refine ⟨_, _, _, scalarmult_eq a u, scalarmult_eq b u, scalarmult_eq a _, ?_⟩
  rw [scalarmult_eq, x25519_comm]

end ND.Proof.X25519
