import NanoDtls.Framework.Twist
import NanoDtls.Proof.X25519.LowOrder

/-!
# The public keys that are rejected

Both handshakes reject a secret that is all zero. Which public keys give one
does not depend on the private key: those of order at most 8, on the curve
or on its twist, five elements of the field (`rejected_iff`). The reason is that
Curve25519 has `8 ℓ` points over the prime field and its twist `4 ℓ'` (`card_curve`,
`card_twist`), for primes above every scalar divided by 8. The curve has points
of order 8 and ℓ, and no room for another multiple of `8 ℓ` points.
-/

namespace ND.Proof.X25519

open ND.Impl ND.Impl.X25519
open ND.Spec.X25519 (p decodeScalar25519 decodeUCoordinate)
open WeierstrassCurve.Affine (Point)

/-! ## The orders -/

/-- A quarter of the order of the twist. -/
def twistOrder : Nat := 14474011154664524427946373126085988481603263447650325797860494125407373907997

def twistCertificates : List Certificate :=
  [⟨2791, 6, [2, 3, 3, 5, 31]⟩,
   ⟨117223, 3, [2, 3, 7, 2791]⟩,
   ⟨84457, 5, [2, 2, 2, 3, 3, 3, 17, 23]⟩,
   ⟨6418733, 2, [2, 2, 19, 84457]⟩,
   ⟨6263, 5, [2, 31, 101]⟩,
   ⟨12527, 5, [2, 6263]⟩,
   ⟨1110318119, 7, [2, 7, 13, 487, 12527]⟩,
   ⟨2220636239, 23, [2, 1110318119]⟩,
   ⟨4363, 2, [2, 3, 727]⟩,
   ⟨3637, 2, [2, 2, 3, 3, 101]⟩,
   ⟨11351, 7, [2, 5, 5, 227]⟩,
   ⟨743104567, 6, [2, 3, 3, 3637, 11351]⟩,
   ⟨3911, 13, [2, 5, 17, 23]⟩,
   ⟨8053, 2, [2, 2, 3, 11, 61]⟩,
   ⟨1013266244677, 2, [2, 2, 3, 7, 383, 3911, 8053]⟩,
   ⟨727169, 3, [2, 2, 2, 2, 2, 2, 2, 13, 19, 23]⟩,
   ⟨2281, 7, [2, 2, 2, 3, 5, 19]⟩,
   ⟨28859, 2, [2, 47, 307]⟩,
   ⟨5171003929967, 5, [2, 7, 31, 181, 2281, 28859]⟩,
   ⟨22561162540501040539, 3, [2, 3, 727169, 5171003929967]⟩,
   ⟨203852586375664218368381551393371968928013, 2, [2, 2, 3, 743104567, 1013266244677, 22561162540501040539]⟩,
   ⟨104719073621178708975837602950775180438320278101, 2, [2, 2, 5, 5, 11, 467, 203852586375664218368381551393371968928013]⟩,
   ⟨27413359092552162435694767700453926735143482401279781, 2, [2, 2, 3, 5, 4363, 104719073621178708975837602950775180438320278101]⟩,
   ⟨14474011154664524427946373126085988481603263447650325797860494125407373907997, 2, [2, 2, 79, 117223, 6418733, 2220636239, 27413359092552162435694767700453926735143482401279781]⟩]

theorem prime_twistOrder : twistOrder.Prime := certified_prime twistCertificates (by decide +kernel) (by decide +kernel)

/-- A point of the curve over the prime field, in the closure. -/
theorem exists_map_basePt : ∃ P : Curve.Point, P ∈ rational K25519 coeffA ∧ addOrderOf P = groupOrder := by
  obtain ⟨ι, hι⟩ := exists_pointMap coeffA (Algebra.ofId F25519 K25519)
  obtain ⟨h, hbase⟩ := hι 9 (baseY : Nat) base_nonsingular
  have : Fact groupOrder.Prime := ⟨prime_groupOrder⟩
  have hzero : groupOrder • ι (.some 9 (baseY : Nat) base_nonsingular) = 0 := by
    rw [← map_nsmul]
    exact (congrArg ι groupOrder_nsmul_basePt).trans (map_zero ι)
  rw [hbase] at hzero
  exact ⟨_, some_mem_rational 9 (baseY : F25519) h, addOrderOf_eq_prime hzero (Point.some_ne_zero _)⟩

/-- The second coordinate of a point of order 8. -/
def order8Y : Nat := 32026303591712962751241307547882981359278212717910236697706316503764922500307

theorem equation_order8 : Curve.Equation (algebraMap F25519 K25519 order8) (algebraMap F25519 K25519 order8Y) := by
  rw [montgomery_equation, ← map_pow, ← map_pow, ← map_pow, ← map_mul, ← map_add, ← map_add]
  refine congrArg _ ?_
  have h := (ZMod.natCast_eq_natCast_iff (order8Y ^ 2) (order8 ^ 3 + 486662 * order8 ^ 2 + order8) p).mpr (by decide)
  simp only [Nat.cast_add, Nat.cast_mul, Nat.cast_pow, Nat.cast_ofNat] at h
  exact h

theorem eight_nsmul {G : Type*} [AddCommMonoid G] (P : G) : 8 • P = ((P + P) + (P + P)) + ((P + P) + (P + P)) := by abel

theorem exists_order8 : ∃ P : Curve.Point, P ∈ rational K25519 coeffA ∧ addOrderOf P = 8 := by
  have hns := montgomery_nonsingular two_ne_zero_closure coeff_sq_ne_four equation_order8
  refine ⟨.some _ _ hns, some_mem_rational _ _ hns, ?_⟩
  generalize hP : (Point.some _ _ hns : Curve.Point) = P
  have hx : x0 P = algebraMap F25519 K25519 order8 := by rw [← hP]; rfl
  have hx2 := x0_double_map P hx
  rw [double_eq_one_iff.mpr (.inl rfl)] at hx2
  have hx4 := x0_double_map _ hx2
  rw [double_eq_zero_iff.mpr (.inr (.inl rfl)), map_zero] at hx4
  have : Fact (Nat.Prime 2) := ⟨Nat.prime_two⟩
  refine addOrderOf_eq_prime_pow (p := 2) (n := 2) (fun h4 => ?_) ?_
  · -- the double of a point with coordinate 1 is not infinity
    have hneg : P + P = -(P + P) := by
      rw [eq_neg_iff_add_eq_zero, ← h4]
      abel
    have h0 := x0_eq_zero_of_eq_neg two_ne_zero_closure quadratic_ne_zero hx2 hneg
    exact one_ne_zero ((map_eq_zero _).mp (hx2.symm.trans h0))
  · exact (eight_nsmul P).trans (add_self_of_x0_eq_zero hx4)

theorem dvd_card_of_mem {H : AddSubgroup Curve.Point} {P : Curve.Point} (hP : P ∈ H) : addOrderOf P ∣ Nat.card H := by
  rw [← AddSubgroup.addOrderOf_mk P hP]
  exact addOrderOf_dvd_natCard _

theorem card_F25519 : Fintype.card F25519 = p := ZMod.card p

theorem card_curve : Nat.card (rational K25519 coeffA) = 8 * groupOrder := by
  obtain ⟨P, hP, horder⟩ := exists_map_basePt
  obtain ⟨Q, hQ, horder'⟩ := exists_order8
  have hdvd : 8 * groupOrder ∣ Nat.card (rational K25519 coeffA) :=
    coprime_eight.symm.mul_dvd_of_dvd_of_dvd (horder' ▸ dvd_card_of_mem hQ) (horder ▸ dvd_card_of_mem hP)
  have hle : Nat.card (rational K25519 coeffA) ≤ 2 * p := by
    have h := card_rational_le two_ne_zero_closure coeff_sq_ne_four quadratic_ne_zero
    rwa [card_F25519] at h
  have hpos : 0 < Nat.card (rational K25519 coeffA) := card_rational_pos two_ne_zero_closure coeff_sq_ne_four
  -- twice as many points would not fit
  obtain ⟨n, hn⟩ := hdvd
  have hn1 : n = 1 := by
    have hroom : 2 * p < 8 * groupOrder * 2 := by decide
    rcases Nat.lt_or_ge n 2 with h | h
    · rcases Nat.eq_zero_or_pos n with rfl | h'
      · omega
      · omega
    · exact absurd (Nat.mul_le_mul_left (8 * groupOrder) h) (by omega)
  rw [hn, hn1, Nat.mul_one]

theorem card_twist : Nat.card (twisted K25519 coeffA) = 4 * twistOrder := by
  have h := card_rational_add_card_twisted two_ne_zero_closure coeff_sq_ne_four quadratic_ne_zero
  rw [card_curve, card_F25519] at h
  have hsum : 8 * groupOrder + 4 * twistOrder = 2 * p + 2 := by decide
  omega

/-! ## Multiples of a point by a scalar -/

/-- Of a multiple of a prime only the cofactor is left. -/
theorem dvd_of_dvd_mul {d a b m ℓ : Nat} (hb : Nat.Coprime b ℓ) (hm : Nat.Coprime m ℓ) (h : d ∣ a * (b * m)) (h' : d ∣ a * ℓ) : d ∣ a := by
  have hgcd := Nat.dvd_gcd h h'
  rwa [Nat.gcd_mul_left, (hb.mul_left hm).gcd_eq_one, Nat.mul_one] at hgcd

/-- A point with a coordinate in the prime field, on the curve or on its twist. -/
theorem eight_nsmul_eq_zero {P : Curve.Point} {x : F25519} (hP : x0 P = algebraMap F25519 K25519 x) {m : Nat} (hm : m ≠ 0)
    (hlt : m < 2 ^ 252) (h : (16 * m) • P = 0) : 8 • P = 0 := by
  have hdvd : addOrderOf P ∣ 16 * m := addOrderOf_dvd_iff_nsmul_eq_zero.mpr h
  have hcoprime {ℓ : Nat} (hprime : ℓ.Prime) (hle : 2 ^ 252 ≤ ℓ) : Nat.Coprime m ℓ :=
    (Nat.coprime_of_lt_prime hm (hlt.trans_le hle) hprime).symm
  rw [← addOrderOf_dvd_iff_nsmul_eq_zero]
  rcases frobenius_eq_or_eq_neg hP with hfixed | hneg
  · have hcard := dvd_card_of_mem (mem_rational.mpr hfixed)
    rw [card_curve] at hcard
    exact dvd_of_dvd_mul (b := 2) (by decide) (hcoprime prime_groupOrder (by decide)) (by rwa [← Nat.mul_assoc]) hcard
  · have hcard := dvd_card_of_mem (mem_twisted.mpr hneg)
    rw [card_twist] at hcard
    refine (dvd_of_dvd_mul (a := 4) (b := 4) ?_ (hcoprime prime_twistOrder (by decide)) ?_ hcard).trans (by decide)
    · decide
    · rwa [← Nat.mul_assoc]

/-- A scalar takes a point to infinity or to the point of order 2 if its coordinate is of low order, and only then. -/
theorem x0_nsmul_eq_zero_iff {P : Curve.Point} {x : F25519} (hP : x0 P = algebraMap F25519 K25519 x) (k : BytesN 32) :
    x0 (decodeScalar25519 k • P) = 0 ↔ LowOrder x := by
  obtain ⟨m, hk, hge, hlt⟩ := decodeScalar_eq k
  have hx4 := x0_double_map _ (x0_double_map P hP)
  rw [hk, ← double_double_eq_zero_iff]
  constructor
  · intro h
    have h16 : (16 * m) • P = 0 := by
      rw [show 16 * m = 8 * m + 8 * m by omega, add_nsmul, add_self_of_x0_eq_zero h]
    have h8 := eight_nsmul_eq_zero hP (by omega) hlt h16
    rw [eight_nsmul, add_eq_zero_iff_eq_neg] at h8
    have h0 := x0_eq_zero_of_eq_neg two_ne_zero_closure quadratic_ne_zero hx4 h8
    exact (map_eq_zero _).mp (hx4.symm.trans h0)
  · intro h
    rw [h, map_zero] at hx4
    rw [mul_nsmul, eight_nsmul, add_self_of_x0_eq_zero hx4, nsmul_zero]
    rfl

/-! ## The handshakes -/

theorem xmult_eq_zero_iff (k : BytesN 32) (x : F25519) : xmult (decodeScalar25519 k) x = 0 ↔ LowOrder x := by
  obtain ⟨P, hP⟩ := exists_point x
  rw [← x0_nsmul_eq_zero_iff hP k, xmult_eq (decodeScalar_lt k) hP, map_eq_zero]

theorem sharedSecret_eq_error (priv peer : BytesN 32) : Client.sharedSecret priv peer = .error .authFailed ↔
    xmult (decodeScalar25519 priv) (decodeUCoordinate peer) = 0 := by
  have hzero : Spec.X25519.x25519 priv peer = zeros 32 ↔ xmult (decodeScalar25519 priv) (decodeUCoordinate peer) = 0 := by
    rw [x25519_eq_xmult]
    constructor
    · intro h
      rw [← decode_leBytes (xmult _ _), h]
      decide
    · intro h
      rw [h]
      decide
  rw [← hzero, Client.sharedSecret, scalarmult_eq, ok_bind]
  by_cases h : Spec.X25519.x25519 priv peer = zeros 32
  · rw [failIf_pos _ (Client.all_beq_zero.mpr h)]
    exact iff_of_true rfl h
  · rw [failIf_bind fun hall => h (Client.all_beq_zero.mp hall)]
    exact iff_of_false (by simp only [pure_eq_ok, reduceCtorEq, not_false_eq_true]) h

/-- For all private keys and all 32 bytes of a public key: both handshakes reject the secret exactly if the coordinate,
with bit 255 ignored and reduced, is one of the five of low order. -/
theorem rejected_iff (priv peer : BytesN 32) :
    Client.sharedSecret priv peer = .error .authFailed ↔ leNat peer.1 % 2 ^ 255 % p ∈ lowOrder := by
  rw [mem_lowOrder_iff (Nat.mod_lt _ (by decide)), ZMod.natCast_mod, sharedSecret_eq_error, xmult_eq_zero_iff]
  rfl

end ND.Proof.X25519
