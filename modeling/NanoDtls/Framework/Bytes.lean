import Mathlib.Data.BitVec
import Mathlib.Data.List.Basic
import Mathlib.Tactic.Positivity
import Mathlib.Tactic.Ring

/-!
# Byte strings

Byte strings as lists of 8-bit words, those of a fixed length (`BytesN`), and
the two positional codecs every wire format uses: `beBytes n v` is the
big-endian string of `n` bytes of `v` and `beNat` reads one back, `leBytes`
and `leNat` the little-endian ones. A codec loses exactly what does not fit
(`beNat_beBytes`, `leNat_leBytes`) and nothing on the way back
(`beBytes_beNat`, `leBytes_leNat`).
-/

namespace ND

abbrev Byte := BitVec 8

abbrev Bytes := List Byte

/-- A byte array of `n` bytes. -/
abbrev BytesN (n : Nat) := { l : Bytes // l.length = n }

/-- `n` zero bytes. -/
def zeros (n : Nat) : BytesN n := ⟨List.replicate n 0, List.length_replicate⟩

theorem BytesN.length_eq {n : Nat} (b : BytesN n) : b.1.length = n := b.2

/-! ## Big-endian -/

/-- The value of a big-endian byte string. -/
def beNat (l : Bytes) : Nat := l.foldl (fun v b => 256 * v + b.toNat) 0

/-- The `n` low bytes of `v`, most significant first. -/
def beBytes : Nat → Nat → Bytes
  | 0, _ => []
  | n + 1, v => BitVec.ofNat 8 (v / 256 ^ n) :: beBytes n v

@[simp] theorem length_beBytes : ∀ n v, (beBytes n v).length = n
  | 0, _ => rfl
  | n + 1, v => by rw [beBytes, List.length_cons, length_beBytes n v]

theorem beNat_foldl (l : Bytes) (v : Nat) :
    l.foldl (fun v b => 256 * v + b.toNat) v = 256 ^ l.length * v + beNat l := by
  induction l generalizing v with
  | nil => simp [beNat]
  | cons b l ih =>
    rw [beNat, List.foldl_cons, ih, List.foldl_cons, ih (256 * 0 + b.toNat), List.length_cons]
    ring

@[simp] theorem beNat_nil : beNat [] = 0 := rfl

theorem beNat_cons (b : Byte) (l : Bytes) : beNat (b :: l) = 256 ^ l.length * b.toNat + beNat l := by
  rw [beNat, List.foldl_cons, beNat_foldl, Nat.mul_zero, Nat.zero_add]

theorem beNat_append (l m : Bytes) : beNat (l ++ m) = 256 ^ m.length * beNat l + beNat m := by
  rw [beNat, List.foldl_append, beNat_foldl]; rfl

theorem beNat_lt (l : Bytes) : beNat l < 256 ^ l.length := by
  induction l with
  | nil => simp
  | cons b l ih =>
    have hb := b.isLt
    rw [beNat_cons, List.length_cons, Nat.pow_succ]
    calc 256 ^ l.length * b.toNat + beNat l
        < 256 ^ l.length * b.toNat + 256 ^ l.length := Nat.add_lt_add_left ih _
      _ = 256 ^ l.length * (b.toNat + 1) := by ring
      _ ≤ 256 ^ l.length * 256 := Nat.mul_le_mul_left _ (by omega)

theorem beNat_beBytes : ∀ n v, beNat (beBytes n v) = v % 256 ^ n
  | 0, v => by simp [beBytes, Nat.mod_one]
  | n + 1, v => by
    rw [beBytes, beNat_cons, length_beBytes, beNat_beBytes n v, BitVec.toNat_ofNat, Nat.pow_succ 256,
      Nat.mod_mul, Nat.add_comm, show 2 ^ 8 = 256 from rfl]

theorem beBytes_mod : ∀ (n k v : Nat), n ≤ k → beBytes n (v % 256 ^ k) = beBytes n v
  | 0, _, _, _ => rfl
  | n + 1, k, v, h => by
    rw [beBytes, beBytes, beBytes_mod n k v (by omega)]
    congr 1
    apply BitVec.eq_of_toNat_eq
    obtain ⟨j, rfl⟩ := Nat.exists_eq_add_of_le h
    rw [BitVec.toNat_ofNat, BitVec.toNat_ofNat, Nat.pow_add, Nat.pow_succ, Nat.mul_assoc,
      Nat.mod_mul_right_div_self, Nat.mod_mod_of_dvd _ (Dvd.intro _ rfl)]

theorem beBytes_beNat (l : Bytes) : beBytes l.length (beNat l) = l := by
  induction l with
  | nil => rfl
  | cons b l ih =>
    have hl := beNat_lt l
    rw [List.length_cons, beBytes, beNat_cons]
    congr 1
    · apply BitVec.eq_of_toNat_eq
      rw [BitVec.toNat_ofNat, Nat.mul_add_div (by positivity), Nat.div_eq_of_lt hl, Nat.add_zero,
        Nat.mod_eq_of_lt b.isLt]
    · rw [← beBytes_mod _ _ _ (Nat.le_refl _), Nat.mul_add_mod, Nat.mod_eq_of_lt hl, ih]

/-- Strings of one length with the same big-endian value are the same. -/
theorem beNat_inj {l m : Bytes} (hlen : l.length = m.length) (h : beNat l = beNat m) : l = m := by
  rw [← beBytes_beNat l, ← beBytes_beNat m, hlen, h]

@[simp] theorem beNat_replicate_zero (n : Nat) : beNat (List.replicate n 0) = 0 := by
  induction n with
  | zero => rfl
  | succ n ih => rw [List.replicate_succ, beNat_cons, ih]; rfl

/-- Digits of `k` bits and what is below them are combined apart. -/
theorem two_pow_mul_add_xor {k x y a b : Nat} (ha : a < 2 ^ k) (hb : b < 2 ^ k) :
    (2 ^ k * x + a) ^^^ (2 ^ k * y + b) = 2 ^ k * (x ^^^ y) + (a ^^^ b) := by
  apply Nat.eq_of_testBit_eq
  intro i
  rw [Nat.testBit_xor, Nat.testBit_two_pow_mul_add _ ha, Nat.testBit_two_pow_mul_add _ hb,
    Nat.testBit_two_pow_mul_add _ (Nat.xor_lt_two_pow ha hb)]
  split
  · rw [Nat.testBit_xor]
  · rw [Nat.testBit_xor]

/-- The exclusive or of two strings of one length is that of their values. -/
theorem beNat_zipWith_xor : ∀ l m : Bytes, l.length = m.length →
    beNat (List.zipWith (· ^^^ ·) l m) = beNat l ^^^ beNat m
  | [], [], _ => rfl
  | [], _ :: _, h => absurd h (by simp)
  | _ :: _, [], h => absurd h (by simp)
  | a :: l, b :: m, h => by
    have hlen : l.length = m.length := by simpa using h
    have hpow : 256 ^ m.length = 2 ^ (8 * m.length) := by rw [Nat.pow_mul]
    have hl : beNat l < 2 ^ (8 * m.length) := by rw [← hpow, ← hlen]; exact beNat_lt l
    have hm : beNat m < 2 ^ (8 * m.length) := by rw [← hpow]; exact beNat_lt m
    rw [List.zipWith_cons_cons, beNat_cons, beNat_cons, beNat_cons, beNat_zipWith_xor l m hlen, List.length_zipWith,
      hlen, Nat.min_self, hpow, two_pow_mul_add_xor hl hm, BitVec.toNat_xor]

/-! ## Little-endian -/

/-- The value of a little-endian byte string. -/
def leNat : Bytes → Nat
  | [] => 0
  | b :: l => b.toNat + 256 * leNat l

/-- The `n` low bytes of `v`, least significant first. -/
def leBytes : Nat → Nat → Bytes
  | 0, _ => []
  | n + 1, v => BitVec.ofNat 8 v :: leBytes n (v / 256)

@[simp] theorem length_leBytes : ∀ n v, (leBytes n v).length = n
  | 0, _ => rfl
  | n + 1, v => by rw [leBytes, List.length_cons, length_leBytes n _]

theorem leNat_lt (l : Bytes) : leNat l < 256 ^ l.length := by
  induction l with
  | nil => simp [leNat]
  | cons b l ih =>
    have hb := b.isLt
    rw [leNat, List.length_cons, Nat.pow_succ]
    omega

theorem leNat_leBytes : ∀ n v, leNat (leBytes n v) = v % 256 ^ n
  | 0, v => by simp [leBytes, leNat, Nat.mod_one]
  | n + 1, v => by
    rw [leBytes, leNat, leNat_leBytes n, BitVec.toNat_ofNat, Nat.pow_succ 256, Nat.mul_comm (256 ^ n),
      Nat.mod_mul]

theorem leBytes_leNat (l : Bytes) : leBytes l.length (leNat l) = l := by
  induction l with
  | nil => rfl
  | cons b l ih =>
    have hb := b.isLt
    rw [List.length_cons, leBytes, leNat, show (b.toNat + 256 * leNat l) / 256 = leNat l by omega, ih]
    congr 1
    apply BitVec.eq_of_toNat_eq
    rw [BitVec.toNat_ofNat]; omega

theorem leNat_append (l m : Bytes) : leNat (l ++ m) = leNat l + 256 ^ l.length * leNat m := by
  induction l with
  | nil => simp [leNat]
  | cons b l ih => rw [List.cons_append, leNat, leNat, ih, List.length_cons]; ring

end ND
