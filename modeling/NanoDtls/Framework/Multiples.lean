import NanoDtls.Framework.Jacobian
import Mathlib.Algebra.Field.ZMod

/-!
# Multiples of a point, by evaluation

Jacobian coordinates as natural numbers modulo a prime `q`. `double` and `add`
have no result where their formulas do not apply, so a multiple that is found
is right (`multiple_rep`), and the kernel can find it.
-/

namespace ND.Multiples

/-- Jacobian coordinates, modulo `q`. -/
structure Coords where
  x : Nat
  y : Nat
  z : Nat

variable (q a : Nat)

/-- `u - v` modulo `q`. -/
def sub (u v : Nat) : Nat := (u + (q - v % q)) % q

/-- The double, unless `y` is 0. -/
def double (P : Coords) : Option Coords :=
  if P.y % q = 0 then none
  else
    let m := (3 * P.x ^ 2 + a * P.z ^ 4) % q
    let s := P.x * P.y ^ 2 % q
    let x' := sub q (m ^ 2) (8 * s)
    some ⟨x', sub q (m * sub q (4 * s) x') (8 * P.y ^ 4), 2 * P.y * P.z % q⟩

/-- The sum, unless the points have the same `x`. -/
def add (P Q : Coords) : Option Coords :=
  let h := sub q (Q.x * P.z ^ 2) (P.x * Q.z ^ 2)
  if h = 0 then none
  else
    let r := sub q (Q.y * P.z ^ 3) (P.y * Q.z ^ 3)
    let u := P.x * Q.z ^ 2 * h ^ 2 % q
    let x' := sub q (sub q (r ^ 2) (h ^ 3)) (2 * u)
    some ⟨x', sub q (r * sub q u x') (P.y * Q.z ^ 3 * h ^ 3), P.z * Q.z * h % q⟩

/-- The multiple `k` of `P`, from that of `k / 2`; `k` has at most `fuel` bits. -/
def multiple (P : Coords) : Nat → Nat → Option Coords
  | 0, _ => none
  | fuel + 1, k =>
    if k = 1 then some P
    else do
      let Q ← multiple P fuel (k / 2)
      let D ← double q a Q
      if k % 2 = 1 then add q D P else some D

variable {q a}

theorem cast_sub (hq : 0 < q) (u v : Nat) : ((sub q u v : Nat) : ZMod q) = u - v := by
  rw [sub, ZMod.natCast_mod, Nat.cast_add, Nat.cast_sub (Nat.mod_lt v hq).le, ZMod.natCast_self, ZMod.natCast_mod,
    zero_sub, sub_eq_add_neg]

section Curve

variable [Fact q.Prime] {A B : ZMod q}

/-- The coordinates of a point. -/
def Rep (P : (shortWeierstrass A B).Point) (c : Coords) : Prop := JRep P (c.x : ZMod q) c.y c.z

theorem double_rep (h2 : (2 : ZMod q) ≠ 0) (ha : (a : ZMod q) = A) {P : (shortWeierstrass A B).Point} {c d : Coords}
    (h : Rep P c) (hd : double q a c = some d) : Rep (P + P) d := by
  have hq : 0 < q := (Fact.out : q.Prime).pos
  rw [double] at hd
  split at hd
  · cases hd
  · rename_i hy
    obtain rfl := Option.some.inj hd
    have hY : (c.y : ZMod q) ≠ 0 := fun h0 => hy (Nat.dvd_iff_mod_eq_zero.mp ((ZMod.natCast_eq_zero_iff _ _).mp h0))
    refine (JRep.double h2 h hY rfl rfl).of_eq ?_ ?_ ?_
    · simp only [cast_sub hq, Nat.cast_mul, Nat.cast_pow, Nat.cast_add, ZMod.natCast_mod, Nat.cast_ofNat, ha]
    · simp only [cast_sub hq, Nat.cast_mul, Nat.cast_pow, Nat.cast_add, ZMod.natCast_mod, Nat.cast_ofNat, ha]
    · simp only [Nat.cast_mul, ZMod.natCast_mod, Nat.cast_ofNat]

theorem add_rep {P Q : (shortWeierstrass A B).Point} {c d e : Coords} (hP : Rep P c) (hQ : Rep Q d)
    (he : add q c d = some e) : Rep (P + Q) e := by
  have hq : 0 < q := (Fact.out : q.Prime).pos
  simp only [add] at he
  split at he
  · cases he
  · rename_i hh
    obtain rfl := Option.some.inj he
    have hH : (sub q (d.x * c.z ^ 2) (c.x * d.z ^ 2) : ZMod q) = (d.x : ZMod q) * c.z ^ 2 - c.x * d.z ^ 2 := by
      simp only [cast_sub hq, Nat.cast_mul, Nat.cast_pow]
    have hr : (sub q (d.y * c.z ^ 3) (c.y * d.z ^ 3) : ZMod q) = (d.y : ZMod q) * c.z ^ 3 - c.y * d.z ^ 3 := by
      simp only [cast_sub hq, Nat.cast_mul, Nat.cast_pow]
    have hH0 : (sub q (d.x * c.z ^ 2) (c.x * d.z ^ 2) : ZMod q) ≠ 0 := by
      intro h0
      rw [ZMod.natCast_eq_zero_iff] at h0
      exact hh (Nat.eq_zero_of_dvd_of_lt h0 (Nat.mod_lt _ hq))
    refine (JRep.add hP hQ hH hr hH0 rfl).of_eq ?_ ?_ ?_
    · simp only [cast_sub hq, Nat.cast_mul, Nat.cast_pow, ZMod.natCast_mod, Nat.cast_ofNat]
    · simp only [cast_sub hq, Nat.cast_mul, Nat.cast_pow, ZMod.natCast_mod, Nat.cast_ofNat]
    · simp only [Nat.cast_mul, ZMod.natCast_mod]

/-- The multiple that is found is the multiple in the group. -/
theorem multiple_rep (h2 : (2 : ZMod q) ≠ 0) (ha : (a : ZMod q) = A) {P : (shortWeierstrass A B).Point} {c : Coords}
    (h : Rep P c) : ∀ (fuel k : Nat) (d : Coords), multiple q a c fuel k = some d → Rep (k • P) d
  | fuel + 1, k, d, hd => by
    rw [multiple] at hd
    split at hd
    · rename_i hk
      obtain rfl := Option.some.inj hd
      rwa [hk, one_nsmul]
    · obtain ⟨Q, hQ, hd⟩ := Option.bind_eq_some_iff.mp hd
      obtain ⟨D, hD, hd⟩ := Option.bind_eq_some_iff.mp hd
      have hdouble := double_rep h2 ha (multiple_rep h2 ha h fuel (k / 2) Q hQ) hD
      have hsplit : k • P = (k / 2) • P + (k / 2) • P + (k % 2) • P := by
        rw [← add_nsmul, ← add_nsmul]
        congr 1
        omega
      rw [hsplit]
      split at hd
      · rename_i hodd
        rw [hodd, one_nsmul]
        exact add_rep hdouble h hd
      · rename_i heven
        obtain rfl := Option.some.inj hd
        rwa [show k % 2 = 0 by omega, zero_nsmul, add_zero]

end Curve

end ND.Multiples
