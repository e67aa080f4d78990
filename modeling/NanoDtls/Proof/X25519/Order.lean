import NanoDtls.Proof.X25519.Commute
import NanoDtls.Proof.Client
import Mathlib.GroupTheory.OrderOfElement

/-!
# The order of the base point

The base point of Curve25519 has prime order (`addOrderOf_basePt`): the ladder
is run at that number, on natural numbers (`natLadder`), and ends at infinity.
A scalar of X25519 is eight times a number below the order, so the secret of
two honest parties is never all zero (`honest_secret`), and a public key
determines its scalar up to one other (`publicKey_eq_iff`).
-/

namespace ND.Proof.X25519

open ND.Impl ND.Impl.X25519
open ND.Spec.X25519 (p cswap ladderRun ladder decodeScalar25519 decodeUCoordinate publicKey)
open WeierstrassCurve.Affine (Point)

/-- The order of the base point. -/
def groupOrder : Nat := 2 ^ 252 + 27742317777372353535851937790883648493

def orderCertificates : List Certificate :=
  [⟨2851, 2, [2, 3, 5, 5, 19]⟩,
   ⟨2551, 6, [2, 3, 5, 5, 17]⟩,
   ⟨1224481, 13, [2, 2, 2, 2, 2, 3, 5, 2551]⟩,
   ⟨3797, 2, [2, 2, 13, 73]⟩,
   ⟨531581, 2, [2, 2, 5, 7, 3797]⟩,
   ⟨1257559732178653, 2, [2, 2, 3, 7, 23, 531581, 1224481]⟩,
   ⟨4434155615661930479, 17, [2, 41, 43, 1257559732178653]⟩,
   ⟨1361, 3, [2, 2, 2, 2, 5, 17]⟩,
   ⟨172054593956031949258510691, 2, [2, 5, 1361, 2851, 4434155615661930479]⟩,
   ⟨2939, 2, [2, 13, 113]⟩,
   ⟨5879, 11, [2, 2939]⟩,
   ⟨292386187, 2, [2, 3, 3, 3, 3, 307, 5879]⟩,
   ⟨213441916511, 13, [2, 5, 73, 292386187]⟩,
   ⟨19757330305831588566944191468367130476339, 2, [2, 269, 213441916511, 172054593956031949258510691]⟩,
   ⟨276602624281642239937218680557139826668747, 2, [2, 7, 19757330305831588566944191468367130476339]⟩,
   ⟨34123, 2, [2, 3, 11, 11, 47]⟩,
   ⟨409477, 2, [2, 2, 3, 34123]⟩,
   ⟨14741173, 2, [2, 2, 3, 3, 409477]⟩,
   ⟨58964693, 2, [2, 2, 14741173]⟩,
   ⟨30703, 3, [2, 3, 7, 17, 43]⟩,
   ⟨41081, 3, [2, 2, 2, 5, 13, 79]⟩,
   ⟨82163, 2, [2, 41081]⟩,
   ⟨1723, 3, [2, 3, 7, 41]⟩,
   ⟨17231, 13, [2, 5, 1723]⟩,
   ⟨137849, 3, [2, 2, 2, 17231]⟩,
   ⟨22111, 6, [2, 3, 5, 11, 67]⟩,
   ⟨132667, 5, [2, 3, 22111]⟩,
   ⟨3044861653679985063343, 5, [2, 3, 11, 30703, 82163, 132667, 137849]⟩,
   ⟨198211423230930754013084525763697, 5, [2, 2, 2, 2, 3, 23, 58964693, 3044861653679985063343]⟩,
   ⟨7237005577332262213973186563042994240857116359379907606001950938285454250989, 2, [2, 2, 3, 11, 198211423230930754013084525763697, 276602624281642239937218680557139826668747]⟩]

theorem prime_groupOrder : groupOrder.Prime := certified_prime orderCertificates (by decide +kernel) (by decide +kernel)

/-! ## The ladder on natural numbers -/

/-- The difference modulo `p`. -/
def natSub (a b : Nat) : Nat := (a + (p - b % p)) % p

theorem cast_natSub (a b : Nat) : ((natSub a b : Nat) : F25519) = a - b := by
  have hle : b % p ≤ p := (Nat.mod_lt b (by decide)).le
  rw [natSub, ZMod.natCast_mod, Nat.cast_add, Nat.cast_sub hle, ZMod.natCast_self, ZMod.natCast_mod, zero_sub, sub_eq_add_neg]

/-- One turn of the ladder, with all values reduced. -/
def natStep (x1 k : Nat) (s : Spec.X25519.Ladder Nat) (t : Nat) : Spec.X25519.Ladder Nat :=
  let kt := k.testBit t
  let swap := s.swap ^^ kt
  let (x2, x3) := cswap swap s.x2 s.x3
  let (z2, z3) := cswap swap s.z2 s.z3
  let A := x2 + z2
  let AA := A * A % p
  let B := natSub x2 z2
  let BB := B * B % p
  let E := natSub AA BB
  let DA := natSub x3 z3 * A % p
  let CB := (x3 + z3) * B % p
  let sum := DA + CB
  let diff := natSub DA CB
  ⟨AA * BB % p, E * (AA + 121665 * E) % p, sum * sum % p, x1 * (diff * diff) % p, kt⟩

def castLadder (s : Spec.X25519.Ladder Nat) : Spec.X25519.Ladder F25519 := ⟨s.x2, s.z2, s.x3, s.z3, s.swap⟩

theorem cswap_cast (b : Bool) (x y : Nat) :
    cswap b (x : F25519) y = (((cswap b x y).1 : F25519), ((cswap b x y).2 : F25519)) := by
  cases b <;> rfl

theorem castLadder_natStep (x1 k : Nat) (s : Spec.X25519.Ladder Nat) (t : Nat) :
    castLadder (natStep x1 k s t) = Spec.X25519.ladderStep (x1 : F25519) k (castLadder s) t := by
  simp only [natStep, Spec.X25519.ladderStep, castLadder, cswap_cast, ZMod.natCast_mod, Nat.cast_add, Nat.cast_mul,
    Nat.cast_ofNat, cast_natSub, pow_two]

def natLadder (k x1 : Nat) : Spec.X25519.Ladder Nat := (List.range 255).reverse.foldl (natStep x1 k) ⟨1, 0, x1, 1, false⟩

theorem castLadder_natLadder (k x1 : Nat) : castLadder (natLadder k x1) = ladderRun k (x1 : F25519) := by
  have hfold : ∀ (l : List Nat) (s : Spec.X25519.Ladder Nat), castLadder (l.foldl (natStep x1 k) s) =
      l.foldl (Spec.X25519.ladderStep (x1 : F25519) k) (castLadder s) := by
    intro l
    induction l with
    | nil => exact fun s => rfl
    | cons t l ih =>
      intro s
      rw [List.foldl_cons, List.foldl_cons, ih, castLadder_natStep]
  rw [natLadder, ladderRun, hfold]
  simp only [castLadder, Nat.cast_one, Nat.cast_zero]

/-! ## The order -/

theorem basePt_ne_zero : basePt ≠ 0 := Point.some_ne_zero _

theorem x0_basePt : x0 basePt = ((9 : Nat) : F25519) := (Nat.cast_ofNat).symm

/-- A multiple of the base point is infinity if the ladder ends with denominator 0. -/
theorem nsmul_basePt_of_natLadder {k : Nat} (hk : k < 2 ^ 255) (hswap : (natLadder k 9).swap = true)
    (hz : (natLadder k 9).z3 = 0) : k • basePt = 0 := by
  have hne : x0 basePt ≠ 0 := by
    rw [x0_basePt]
    exact natCast_ne_zero (by decide) (by decide)
  have hrep := xRep_ladder two_ne_zero' coeffA_sq_ne_four rfl hne hk
  have hend : (ladder k (x0 basePt)).2 = 0 := by
    rw [x0_basePt]
    simp only [ladder, ← castLadder_natLadder, castLadder, hswap, cswap, if_true, hz, Nat.cast_zero]
  rw [hend] at hrep
  generalize k • basePt = P at hrep
  cases P with
  | zero => rfl
  | some x y h => exact absurd rfl hrep.1

theorem groupOrder_nsmul_basePt : groupOrder • basePt = 0 :=
  nsmul_basePt_of_natLadder (by decide) (by decide +kernel) (by decide +kernel)

theorem addOrderOf_basePt : addOrderOf basePt = groupOrder :=
  have : Fact groupOrder.Prime := ⟨prime_groupOrder⟩
  addOrderOf_eq_prime groupOrder_nsmul_basePt basePt_ne_zero

theorem nsmul_basePt_eq_zero_iff (k : Nat) : k • basePt = 0 ↔ groupOrder ∣ k := by
  rw [← addOrderOf_basePt, addOrderOf_dvd_iff_nsmul_eq_zero]

/-! ## Scalars -/

/-- A scalar is eight times a number between `2^251` and `2^252`. -/
theorem decodeScalar_eq (k : BytesN 32) : ∃ m, decodeScalar25519 k = 8 * m ∧ 2 ^ 251 ≤ m ∧ m < 2 ^ 252 := by
  refine ⟨decodeScalar25519 k / 8, ?_, ?_, ?_⟩ <;> rw [decodeScalar25519] <;> omega

theorem coprime_eight : Nat.Coprime groupOrder 8 := by decide

/-- No scalar is a multiple of the order. -/
theorem not_dvd_decodeScalar (k : BytesN 32) : ¬ groupOrder ∣ decodeScalar25519 k := by
  obtain ⟨m, hm, hlow, hhigh⟩ := decodeScalar_eq k
  rw [hm]
  intro h
  have hle := Nat.le_of_dvd (by omega) (coprime_eight.dvd_of_dvd_mul_left h)
  simp only [groupOrder] at hle
  omega

theorem nsmul_basePt_ne_zero (k : BytesN 32) : decodeScalar25519 k • basePt ≠ 0 := fun h =>
  not_dvd_decodeScalar k ((nsmul_basePt_eq_zero_iff _).mp h)

theorem encode_inj {P Q : (montgomery coeffA).Point} : encode P = encode Q ↔ x0 P = x0 Q := by
  refine ⟨fun h => ?_, fun h => Subtype.ext (congrArg (fun v : F25519 => leBytes 32 v.val) h)⟩
  rw [← decode_encode P, ← decode_encode Q, h]

theorem encode_eq_zeros {P : (montgomery coeffA).Point} (h : encode P = zeros 32) : P + P = 0 := by
  apply add_self_of_x0_eq_zero
  rw [← decode_encode P, h]
  decide

/-- For all secrets of two honest parties: neither side rejects the other's public key, and both get
the same secret, which is not all zero. -/
theorem honest_secret (a b : BytesN 32) :
    ∃ pubA pubB secret, x25519Base a = .ok pubA ∧ x25519Base b = .ok pubB ∧ secret ≠ zeros 32 ∧
      Client.sharedSecret a pubB = .ok secret ∧ Client.sharedSecret b pubA = .ok secret := by
  have hpub : ∀ k, x25519Base k = .ok (publicKey k) := fun k => scalarmult_eq k basePoint
  have hne : Spec.X25519.x25519 a (publicKey b) ≠ zeros 32 := by
    intro h
    rw [publicKey_eq, x25519_encode] at h
    -- twice the product of the scalars is a multiple of the order
    have hdouble := encode_eq_zeros h
    rw [← two_nsmul, ← mul_nsmul, ← mul_nsmul, nsmul_basePt_eq_zero_iff] at hdouble
    rcases (Nat.Prime.dvd_mul prime_groupOrder).mp hdouble with hdvd | hdvd
    · exact not_dvd_decodeScalar b hdvd
    rcases (Nat.Prime.dvd_mul prime_groupOrder).mp hdvd with hdvd | hdvd
    · exact not_dvd_decodeScalar a hdvd
    · exact absurd (Nat.le_of_dvd (by decide) hdvd) (by decide)
  refine ⟨_, _, _, hpub a, hpub b, hne, Client.sharedSecret_eq_ok.mpr ⟨rfl, hne⟩, ?_⟩
  rw [x25519_publicKey_comm] at hne ⊢
  exact Client.sharedSecret_eq_ok.mpr ⟨rfl, hne⟩

/-- Two private keys have the same public key exactly if their scalars are equal or add up to eight
times the order. -/
theorem publicKey_eq_iff (a b : BytesN 32) : x25519Base a = x25519Base b ↔
    decodeScalar25519 a = decodeScalar25519 b ∨ decodeScalar25519 a + decodeScalar25519 b = 8 * groupOrder := by
  obtain ⟨m, hm, hlow, hhigh⟩ := decodeScalar_eq a
  obtain ⟨n, hn, hlow', hhigh'⟩ := decodeScalar_eq b
  have hmod : decodeScalar25519 a ≡ decodeScalar25519 b [MOD groupOrder] ↔ m = n := by
    rw [hm, hn]
    constructor
    · intro h
      have hcancel : m ≡ n [MOD groupOrder] := Nat.ModEq.cancel_left_of_coprime coprime_eight h
      rw [Nat.ModEq, groupOrder, Nat.mod_eq_of_lt (by omega), Nat.mod_eq_of_lt (by omega)] at hcancel
      exact hcancel
    · rintro rfl
      rfl
  have hdvd : groupOrder ∣ decodeScalar25519 a + decodeScalar25519 b ↔ m + n = groupOrder := by
    rw [hm, hn, ← Nat.mul_add]
    constructor
    · intro h
      obtain ⟨c, hc⟩ := coprime_eight.dvd_of_dvd_mul_left h
      have hc1 : c = 1 := by
        simp only [groupOrder] at hc
        nlinarith
      rw [hc, hc1, Nat.mul_one]
    · intro h
      exact Dvd.intro_left 8 (by rw [h])
  rw [base_encode, base_encode, Except.ok.injEq, encode_inj, x0_eq_iff (nsmul_basePt_ne_zero a) (nsmul_basePt_ne_zero b),
    eq_neg_iff_add_eq_zero, ← add_nsmul, nsmul_basePt_eq_zero_iff, hdvd, nsmul_eq_nsmul_iff_modEq, addOrderOf_basePt, hmod, hm, hn]
  omega

end ND.Proof.X25519
