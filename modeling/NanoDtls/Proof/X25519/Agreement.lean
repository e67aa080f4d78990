import NanoDtls.Framework.Montgomery
import NanoDtls.Framework.Primality
import NanoDtls.Proof.X25519.Ladder
import Mathlib.FieldTheory.Finite.Basic

/-!
# X25519 agreement

The ladder on the x-coordinate of a point of Curve25519 gives the x-coordinate
of its multiple: before the turn for bit `t` the two points of the ladder are
`m • P` and `(m + 1) • P` with `m` the bits above `t`, in the order that the
pending swap says (`LadderInv`). Multiples of the base point commute, so both
sides of an exchange compute the same bytes.
-/

namespace ND.Proof.X25519

open ND.Impl ND.Impl.X25519
open ND.Spec.X25519 (p cswap ladderRun ladder)
open WeierstrassCurve.Affine (Point)

/-! ## The field -/

def certificates : List Certificate :=
  [⟨569003, 2, [2, 7, 97, 419]⟩,
   ⟨2437, 2, [2, 2, 3, 7, 29]⟩,
   ⟨2773320623, 5, [2, 2437, 569003]⟩,
   ⟨72106336199, 7, [2, 13, 2773320623]⟩,
   ⟨8574133, 2, [2, 2, 3, 7, 103, 991]⟩,
   ⟨1919519569386763, 2, [2, 3, 7, 19, 47, 47, 127, 8574133]⟩,
   ⟨9463, 3, [2, 3, 19, 83]⟩,
   ⟨37853, 2, [2, 2, 9463]⟩,
   ⟨75707, 2, [2, 37853]⟩,
   ⟨75445702479781427272750846543864801, 7, [2, 2, 2, 2, 2, 3, 3, 5, 5, 75707, 72106336199, 1919519569386763]⟩,
   ⟨132049, 26, [2, 2, 2, 2, 3, 3, 7, 131]⟩,
   ⟨1723, 3, [2, 3, 7, 41]⟩,
   ⟨430751, 17, [2, 5, 5, 5, 1723]⟩,
   ⟨4153, 5, [2, 2, 2, 3, 173]⟩,
   ⟨31757755568855353, 10, [2, 2, 2, 3, 31, 107, 223, 4153, 430751]⟩,
   ⟨57467, 2, [2, 59, 487]⟩,
   ⟨3727, 3, [2, 3, 3, 3, 3, 23]⟩,
   ⟨1923133, 2, [2, 2, 3, 43, 3727]⟩,
   ⟨74058212732561358302231226437062788676166966415465897661863160754340907, 2, [2, 3, 353, 57467, 132049, 1923133, 31757755568855353, 75445702479781427272750846543864801]⟩,
   ⟨32573, 2, [2, 2, 17, 479]⟩,
   ⟨65147, 2, [2, 32573]⟩,
   ⟨57896044618658097711785492504343953926634992332820282019728792003956564819949, 2, [2, 2, 3, 65147, 74058212732561358302231226437062788676166966415465897661863160754340907]⟩]

theorem prime_p : p.Prime := certified_prime certificates (by decide +kernel) (by decide +kernel)

instance : Fact p.Prime := ⟨prime_p⟩

abbrev F25519 := ZMod p

/-- The coefficient of Curve25519. -/
def coeffA : F25519 := 486662

theorem natCast_ne_zero {n : Nat} (h0 : 0 < n) (h : n < p) : (n : F25519) ≠ 0 := fun hn =>
  Nat.not_le.mpr h (Nat.le_of_dvd h0 ((ZMod.natCast_eq_zero_iff n p).mp hn))

theorem two_ne_zero' : (2 : F25519) ≠ 0 := natCast_ne_zero (n := 2) (by decide) (by decide)

theorem coeffA_sq_ne_four : coeffA ^ 2 ≠ 4 := by
  intro h
  have h0 : ((486662 ^ 2 - 4 : Nat) : F25519) = 0 := by
    rw [Nat.cast_sub (by decide), Nat.cast_pow, sub_eq_zero]
    exact h
  exact natCast_ne_zero (by decide) (by decide) h0

/-! ## The ladder -/

section Ladder

-- over any field where 2 and the discriminant are not 0, as the points of some coordinates lie in an extension
variable {K : Type _} [Field K]

/-- With the coordinate 0 both denominators vanish in the first turn and stay 0. -/
theorem ladderStep_zero (k t : Nat) {s : Spec.X25519.Ladder K} (h : s.z2 = 0 ∧ s.z3 = 0) :
    (Spec.X25519.ladderStep 0 k s t).z2 = 0 ∧ (Spec.X25519.ladderStep 0 k s t).z3 = 0 := by
  simp only [Spec.X25519.ladderStep, h.1, h.2, cswap]
  split <;> simp

theorem foldl_ladderStep_zero (k : Nat) : ∀ (l : List Nat) (s : Spec.X25519.Ladder K),
    s.z2 = 0 ∧ s.z3 = 0 → (l.foldl (Spec.X25519.ladderStep 0 k) s).z2 = 0 ∧
      (l.foldl (Spec.X25519.ladderStep 0 k) s).z3 = 0
  | [], _, h => h
  | t :: l, _, h => foldl_ladderStep_zero k l _ (ladderStep_zero k t h)

theorem ladderRun_zero (k : Nat) : (ladderRun k (0 : K)).z2 = 0 ∧ (ladderRun k (0 : K)).z3 = 0 := by
  have hrange : (List.range 255).reverse = 254 :: (List.range 254).reverse := by
    rw [List.range_succ, List.reverse_append, List.reverse_singleton, List.singleton_append]
  have hfirst : (Spec.X25519.ladderStep (0 : K) k ⟨1, 0, 0, 1, false⟩ 254).z2 = 0 ∧
      (Spec.X25519.ladderStep (0 : K) k ⟨1, 0, 0, 1, false⟩ 254).z3 = 0 := by
    simp only [Spec.X25519.ladderStep, cswap]
    split <;> simp
  rw [ladderRun, hrange, List.foldl_cons]
  exact foldl_ladderStep_zero k (List.range 254).reverse _ hfirst

theorem ladder_zero (k : Nat) : (ladder k (0 : K)).2 = 0 := by
  obtain ⟨h2, h3⟩ := ladderRun_zero (K := K) k
  simp only [ladder, h2, h3, cswap, ite_self]

variable [DecidableEq K] {A : K} {P : (montgomery A).Point} {u : K}

/-- The two points of the ladder, in the order that the pending swap says. -/
structure LadderInv (P : (montgomery A).Point) (m : Nat) (s : Spec.X25519.Ladder K) : Prop where
  low : XRep ((m + s.swap.toNat) • P) s.x2 s.z2
  high : XRep ((m + (!s.swap).toNat) • P) s.x3 s.z3

/-- After the swap the points are in the order of the bit at hand. -/
theorem LadderInv.swapped {m : Nat} {s : Spec.X25519.Ladder K} (h : LadderInv P m s) (b : Bool) :
    XRep ((m + b.toNat) • P) (cswap (s.swap ^^ b) s.x2 s.x3).1 (cswap (s.swap ^^ b) s.z2 s.z3).1 ∧
      XRep ((m + (!b).toNat) • P) (cswap (s.swap ^^ b) s.x2 s.x3).2 (cswap (s.swap ^^ b) s.z2 s.z3).2 := by
  obtain ⟨hl, hh⟩ := h
  cases hs : s.swap <;> cases b <;> simp only [hs, cswap] at hl hh ⊢
  · exact ⟨hl, hh⟩
  · exact ⟨hh, hl⟩
  · exact ⟨hh, hl⟩
  · exact ⟨hl, hh⟩

/-- The difference of the two points is the base, up to its sign. -/
theorem x0_sub_swap (m : Nat) (b : Bool) : x0 ((m + (!b).toNat) • P - (m + b.toNat) • P) = x0 P := by
  cases b with
  | false => simp [add_nsmul]
  | true => simp [add_nsmul, x0_neg]

section Discriminant

variable (h2 : (2 : K) ≠ 0) (hA : A ^ 2 ≠ 4) (hcoeff : A = 486662)
include h2 hA hcoeff

theorem ladderStep_inv (hu : x0 P = u) (hu0 : u ≠ 0) {m k t : Nat} {s : Spec.X25519.Ladder K}
    (h : LadderInv P m s) :
    LadderInv P (2 * m + (k.testBit t).toNat) (Spec.X25519.ladderStep u k s t) := by
  obtain ⟨h2', h3⟩ := h.swapped (k.testBit t)
  simp only [Spec.X25519.ladderStep]
  generalize k.testBit t = b at *
  generalize cswap (s.swap ^^ b) s.x2 s.x3 = X at *
  generalize cswap (s.swap ^^ b) s.z2 s.z3 = Z at *
  have h4 : (4 : K) ≠ 0 := by
    rw [show (4 : K) = 2 ^ 2 by norm_num]
    exact pow_ne_zero 2 h2
  have hdbl := h2'.double h2 hA
  have hadd := (h3.diffAdd h2 hA h2' ((x0_sub_swap m b).trans hu) hu0).smul h4
  refine ⟨?_, ?_⟩
  · rw [show (2 * m + b.toNat + b.toNat) • P = (m + b.toNat) • P + (m + b.toNat) • P by
      rw [← add_nsmul]; congr 1; omega]
    have hz : 4 * X.1 * Z.1 * (X.1 ^ 2 + A * X.1 * Z.1 + Z.1 ^ 2) =
        ((X.1 + Z.1) ^ 2 - (X.1 - Z.1) ^ 2) *
          ((X.1 + Z.1) ^ 2 + 121665 * ((X.1 + Z.1) ^ 2 - (X.1 - Z.1) ^ 2)) := by
      rw [hcoeff]
      ring
    rw [hz] at hdbl
    rwa [show (X.1 + Z.1) ^ 2 * (X.1 - Z.1) ^ 2 = (X.1 ^ 2 - Z.1 ^ 2) ^ 2 by ring]
  · rw [show (2 * m + b.toNat + (!b).toNat) • P = (m + (!b).toNat) • P + (m + b.toNat) • P by
      rw [← add_nsmul]; congr 1; cases b <;> simp <;> omega]
    convert hadd using 1 <;> ring

/-- All turns from bit `n - 1` down: the bits of `k` below `n` are appended to `m`. -/
theorem ladder_inv (hu : x0 P = u) (hu0 : u ≠ 0) (k : Nat) : ∀ (n : Nat) (s : Spec.X25519.Ladder K),
    LadderInv P (k / 2 ^ n) s → LadderInv P k ((List.range n).reverse.foldl (Spec.X25519.ladderStep u k) s)
  | 0, s, h => by simpa using h
  | n + 1, s, h => by
    rw [List.range_succ, List.reverse_append, List.reverse_singleton, List.singleton_append, List.foldl_cons]
    refine ladder_inv hu hu0 k n _ ?_
    have hbit : k / 2 ^ n = 2 * (k / 2 ^ (n + 1)) + (k.testBit n).toNat := by
      rw [Nat.pow_succ, ← Nat.div_div_eq_div_mul, Nat.toNat_testBit]
      omega
    rw [hbit]
    exact ladderStep_inv h2 hA hcoeff hu hu0 h

/-- The ladder ends with the coordinates of the multiple of a point. -/
theorem xRep_ladder (hu0 : x0 P ≠ 0) {k : Nat} (hk : k < 2 ^ 255) :
    XRep (k • P) (ladder k (x0 P)).1 (ladder k (x0 P)).2 := by
  have hstart : LadderInv P (k / 2 ^ 255) ⟨1, 0, x0 P, 1, false⟩ := by
    rw [Nat.div_eq_of_lt hk]
    refine ⟨?_, ?_⟩
    · rw [show (0 + false.toNat) • P = 0 from zero_nsmul P]
      exact ⟨one_ne_zero, rfl⟩
    · rw [show (0 + (!false).toNat) • P = P from one_nsmul P]
      cases P with
      | zero => exact absurd rfl hu0
      | some x y hP => exact ⟨one_ne_zero, (mul_one x).symm⟩
  have hrun : LadderInv P k (ladderRun k (x0 P)) := ladder_inv h2 hA hcoeff rfl hu0 k 255 _ hstart
  have hend := (hrun.swapped false).1
  rw [Bool.xor_false, Bool.toNat_false, Nat.add_zero] at hend
  simp only [ladder]
  exact hend

/-- The ladder multiplies points. -/
theorem ladder_div (P : (montgomery A).Point) {k : Nat} (hk : k < 2 ^ 255) :
    (ladder k (x0 P)).1 / (ladder k (x0 P)).2 = x0 (k • P) := by
  by_cases hu0 : x0 P = 0
  · rw [hu0, ladder_zero, div_zero, x0_nsmul_of_x0_eq_zero hu0]
  · exact (xRep_ladder h2 hA hcoeff hu0 hk).div

end Discriminant

end Ladder

theorem pow_sub_two (z : F25519) : z ^ (p - 2) = z⁻¹ := by
  by_cases hz : z = 0
  · rw [hz, inv_zero, zero_pow (by decide)]
  · refine eq_inv_of_mul_eq_one_left ?_
    rw [← pow_succ, show p - 2 + 1 = p - 1 by decide]
    exact ZMod.pow_card_sub_one_eq_one hz

theorem ladder_x0 (P : (montgomery coeffA).Point) {k : Nat} (hk : k < 2 ^ 255) :
    (ladder k (x0 P)).1 * (ladder k (x0 P)).2 ^ (p - 2) = x0 (k • P) := by
  rw [pow_sub_two, ← div_eq_mul_inv]
  exact ladder_div two_ne_zero' coeffA_sq_ne_four rfl P hk

/-! ## The base point and the exchange -/

/-- The y-coordinate of the base point. -/
def baseY : Nat := 14781619447589544791020593568409986887264606134616475288964881837755586237401

theorem base_equation : (montgomery coeffA).Equation (9 : F25519) (baseY : Nat) := by
  rw [montgomery_equation]
  have h := (ZMod.natCast_eq_natCast_iff (baseY ^ 2) (9 ^ 3 + 486662 * 9 ^ 2 + 9) p).mpr (by decide)
  simp only [Nat.cast_add, Nat.cast_mul, Nat.cast_pow, Nat.cast_ofNat] at h
  exact h

theorem base_nonsingular : (montgomery coeffA).Nonsingular (9 : F25519) (baseY : Nat) := by
  refine (WeierstrassCurve.Affine.nonsingular_iff _ _).mpr ⟨base_equation, .inr fun h => ?_⟩
  have h0 : ((2 * baseY % p : Nat) : F25519) = 0 := by
    rw [ZMod.natCast_mod, Nat.cast_mul]
    simp only [montgomery, zero_mul, sub_zero] at h
    push_cast
    linear_combination h
  exact natCast_ne_zero (by decide) (by decide) h0

/-- The base point of Curve25519. -/
def basePt : (montgomery coeffA).Point := .some 9 (baseY : Nat) base_nonsingular

/-- A point's x-coordinate as bytes. -/
def encode (P : (montgomery coeffA).Point) : BytesN 32 := ⟨leBytes 32 (x0 P).val, by simp⟩

theorem decode_encode (P : (montgomery coeffA).Point) : Spec.X25519.decodeUCoordinate (encode P) = x0 P := by
  have hlt : (x0 P).val < 2 ^ 255 := (ZMod.val_lt (x0 P)).trans (by decide)
  rw [Spec.X25519.decodeUCoordinate, encode, leNat_leBytes, Nat.mod_eq_of_lt (hlt.trans (by decide)),
    Nat.mod_eq_of_lt hlt, ZMod.natCast_zmod_val]

theorem decodeScalar_lt (k : BytesN 32) : Spec.X25519.decodeScalar25519 k < 2 ^ 255 := by
  have := Nat.mod_lt (leNat k.1) (show 0 < 2 ^ 254 by decide)
  rw [Spec.X25519.decodeScalar25519]
  omega

/-- On the x-coordinate of a point, X25519 multiplies the point. -/
theorem scalarmult_encode (k : BytesN 32) (P : (montgomery coeffA).Point) :
    x25519Scalarmult k (encode P) = .ok (encode (Spec.X25519.decodeScalar25519 k • P)) := by
  rw [scalarmult_eq, Spec.X25519.x25519]
  simp only [decode_encode, ladder_x0 P (decodeScalar_lt k)]
  rfl

theorem basePoint_eq : basePoint = encode basePt := by
  refine Subtype.ext ?_
  change basePoint.1 = leBytes 32 (9 : F25519).val
  rw [show (9 : F25519).val = 9 from ZMod.val_natCast_of_lt (show 9 < p by decide)]
  decide

theorem base_encode (k : BytesN 32) :
    x25519Base k = .ok (encode (Spec.X25519.decodeScalar25519 k • basePt)) := by
  rw [x25519Base, basePoint_eq, scalarmult_encode]

theorem publicKey_eq (k : BytesN 32) : Spec.X25519.publicKey k = encode (Spec.X25519.decodeScalar25519 k • basePt) :=
  Except.ok.inj ((scalarmult_eq k basePoint).symm.trans (base_encode k))

theorem x25519_encode (k : BytesN 32) (P : (montgomery coeffA).Point) :
    Spec.X25519.x25519 k (encode P) = encode (Spec.X25519.decodeScalar25519 k • P) :=
  Except.ok.inj ((scalarmult_eq k (encode P)).symm.trans (scalarmult_encode k P))

/-- The secret that two parties share is the same for both. -/
theorem x25519_publicKey_comm (a b : BytesN 32) :
    Spec.X25519.x25519 a (Spec.X25519.publicKey b) = Spec.X25519.x25519 b (Spec.X25519.publicKey a) := by
  rw [publicKey_eq, publicKey_eq, x25519_encode, x25519_encode, ← mul_nsmul, ← mul_nsmul, Nat.mul_comm]

/-- Both sides of an X25519 exchange compute the same bytes, whatever their secrets. -/
theorem exchange_agrees (a b : BytesN 32) :
    ∃ pubA pubB shared, x25519Base a = .ok pubA ∧ x25519Base b = .ok pubB ∧
      x25519Scalarmult a pubB = .ok shared ∧ x25519Scalarmult b pubA = .ok shared := by
  refine ⟨_, _, _, base_encode a, base_encode b, scalarmult_encode a _, ?_⟩
  rw [scalarmult_encode, ← mul_nsmul, ← mul_nsmul, Nat.mul_comm]

/-! ## Powers of two

The private key that is all zero is the scalar `2^254`, so its public key is
a chain of doublings. -/

/-- A doubling of `(X : Z)`. -/
def xDouble (q : Nat × Nat) : Nat × Nat :=
  ((q.1 ^ 2 + (p - 1) * q.2 ^ 2) ^ 2 % p, 4 * q.1 * q.2 * (q.1 ^ 2 + 486662 * q.1 * q.2 + q.2 ^ 2) % p)

theorem xRep_xDouble {P : (montgomery coeffA).Point} {q : Nat × Nat} (h : XRep P (q.1 : F25519) q.2) :
    XRep (P + P) ((xDouble q).1 : F25519) (xDouble q).2 := by
  have hneg : ((p - 1 : Nat) : F25519) = -1 := by
    rw [Nat.cast_sub (by decide), ZMod.natCast_self, zero_sub, Nat.cast_one]
  convert h.double two_ne_zero' coeffA_sq_ne_four using 1
  · rw [xDouble, ZMod.natCast_mod]
    push_cast
    rw [hneg]
    ring
  · rw [xDouble, ZMod.natCast_mod, coeffA]
    push_cast
    ring

theorem xRep_two_pow : ∀ n : Nat, XRep (2 ^ n • basePt) ((xDouble^[n] (9, 1)).1 : F25519) (xDouble^[n] (9, 1)).2
  | 0 => by
    rw [pow_zero, one_nsmul]
    exact ⟨by simp, by simp⟩
  | n + 1 => by
    rw [pow_succ, mul_nsmul, two_nsmul, Function.iterate_succ_apply']
    exact xRep_xDouble (xRep_two_pow n)

theorem x0_of_xRep {P : (montgomery coeffA).Point} {X Z v : Nat} (h : XRep P (X : F25519) Z) (hX : X % p = v * Z % p)
    (hZ : Z % p ≠ 0) : x0 P = (v : F25519) := by
  have hX' : (X : F25519) = (v * Z : Nat) := (ZMod.natCast_eq_natCast_iff' _ _ p).mpr hX
  have hZ' : (Z : F25519) ≠ 0 := fun h0 => hZ (Nat.mod_eq_zero_of_dvd ((ZMod.natCast_eq_zero_iff _ p).mp h0))
  rw [← h.div, hX', Nat.cast_mul, mul_div_cancel_right₀ _ hZ']

theorem encode_two_pow (n v : Nat) (hv : v < p) (hX : (xDouble^[n] (9, 1)).1 % p = v * (xDouble^[n] (9, 1)).2 % p)
    (hZ : (xDouble^[n] (9, 1)).2 % p ≠ 0) : encode (2 ^ n • basePt) = ⟨leBytes 32 v, by simp⟩ := by
  have hval : (x0 (2 ^ n • basePt)).val = v := by rw [x0_of_xRep (xRep_two_pow n) hX hZ, ZMod.val_natCast_of_lt hv]
  refine Subtype.ext ?_
  exact congrArg (leBytes 32) hval

theorem publicKey_zeros : Spec.X25519.publicKey (zeros 32) =
    ⟨leBytes 32 0x743bcb585f9990edc2cfc4af84f6ff300729bb5facda28154362cd47a37de52f, by simp⟩ := by
  rw [publicKey_eq, show Spec.X25519.decodeScalar25519 (zeros 32) = 2 ^ 254 by decide]
  exact encode_two_pow 254 _ (by decide) (by decide +kernel) (by decide +kernel)

theorem x25519_zeros_ne : Spec.X25519.x25519 (zeros 32) (Spec.X25519.publicKey (zeros 32)) ≠ zeros 32 := by
  have hencode := encode_two_pow (254 + 254) 0x68bb5dd8064094890c91dc9671bdfcdf8baead5bff5264fd2cb6aec1a7a2fe93 (by decide)
    (by decide +kernel) (by decide +kernel)
  rw [pow_add, mul_nsmul] at hencode
  rw [publicKey_eq, x25519_encode, show Spec.X25519.decodeScalar25519 (zeros 32) = 2 ^ 254 by decide, hencode]
  decide

end ND.Proof.X25519
