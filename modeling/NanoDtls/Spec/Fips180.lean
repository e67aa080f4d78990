import NanoDtls.Framework.Blocks
import NanoDtls.Impl.Sha256

/-!
# SHA-256 of FIPS 180-4

The hash of a whole message: the message is padded to a multiple of 64
bytes, and its blocks are compressed one after the other. The constants are
computed: they are the first 32 bits of the fractional parts of the square
roots of the first 8 primes, and of the cube roots of the first 64.
-/

namespace ND.Spec.Fips180

open ND.Impl.Sha256 (Word Hash)

/-! ## Constants -/

/-- The first 64 primes: those below 312. -/
def primes : List Nat :=
  (List.range' 2 310).filter fun q => (List.range' 2 (q - 2)).all fun d => q % d != 0

/-- The `n`-th root of `x`, rounded down, from its bits above bit `k`, which are `c`. -/
def rootBits (n x : Nat) : Nat → Nat → Nat
  | 0, c => c
  | k + 1, c => if (c + 2 ^ k) ^ n ≤ x then rootBits n x k (c + 2 ^ k) else rootBits n x k c

/-- The first 32 bits of the fractional part of the `n`-th root of `q`. -/
def rootFraction (n q : Nat) : Word := BitVec.ofNat 32 (rootBits n (q * 2 ^ (32 * n)) 40 0)

def K (t : Nat) : Word := rootFraction 3 (primes.getD t 0)

/-- The hash before the first block. -/
def H0 : Hash :=
  let h (i : Nat) := rootFraction 2 (primes.getD i 0)
  ⟨h 0, h 1, h 2, h 3, h 4, h 5, h 6, h 7⟩

/-! ## Functions -/

def ch (x y z : Word) : Word := (x &&& y) ^^^ (~~~x &&& z)

def maj (x y z : Word) : Word := (x &&& y) ^^^ (x &&& z) ^^^ (y &&& z)

def bigSigma0 (x : Word) : Word := x.rotateRight 2 ^^^ x.rotateRight 13 ^^^ x.rotateRight 22

def bigSigma1 (x : Word) : Word := x.rotateRight 6 ^^^ x.rotateRight 11 ^^^ x.rotateRight 25

def smallSigma0 (x : Word) : Word := x.rotateRight 7 ^^^ x.rotateRight 18 ^^^ (x >>> 3)

def smallSigma1 (x : Word) : Word := x.rotateRight 17 ^^^ x.rotateRight 19 ^^^ (x >>> 10)

/-! ## A block -/

/-- The message schedule. -/
def W (block : Bytes) (t : Nat) : Word :=
  if t < 16 then BitVec.ofNat 32 (beNat ((block.drop (4 * t)).take 4))
  else smallSigma1 (W block (t - 2)) + W block (t - 7) + smallSigma0 (W block (t - 15)) + W block (t - 16)

/-- Round `t` of the compression of a block. -/
def round (block : Bytes) (v : Hash) (t : Nat) : Hash :=
  let T1 := v.h + bigSigma1 v.e + ch v.e v.f v.g + K t + W block t
  let T2 := bigSigma0 v.a + maj v.a v.b v.c
  ⟨T1 + T2, v.a, v.b, v.c, v.d + T1, v.e, v.f, v.g⟩

/-- The hash after a block. -/
def compress (H : Hash) (block : Bytes) : Hash :=
  let v := (List.range 64).foldl (round block) H
  ⟨v.a + H.a, v.b + H.b, v.c + H.c, v.d + H.d, v.e + H.e, v.f + H.f, v.g + H.g, v.h + H.h⟩

/-! ## A message -/

/-- The zero bytes between the bit 1 and the length: the fewest that make the whole a multiple of
64 bytes. -/
def zeroBytes (len : Nat) : Nat := (119 - len % 64) % 64

/-- The message, a bit 1, zeros, and the number of bits of the message in 64 bits. -/
def pad (msg : Bytes) : Bytes :=
  msg ++ [0x80] ++ List.replicate (zeroBytes msg.length) 0 ++ beBytes 8 (8 * msg.length)

/-- The digest of a message of less than `2^61` bytes. -/
def sha256 (msg : Bytes) : Bytes :=
  let H := (chunks 64 (pad msg)).foldl compress H0
  beBytes 4 H.a.toNat ++ beBytes 4 H.b.toNat ++ beBytes 4 H.c.toNat ++ beBytes 4 H.d.toNat ++
    beBytes 4 H.e.toNat ++ beBytes 4 H.f.toNat ++ beBytes 4 H.g.toNat ++ beBytes 4 H.h.toNat

theorem length_pad (msg : Bytes) : (pad msg).length % 64 = 0 := by
  simp only [pad, zeroBytes, List.length_append, List.length_replicate, List.length_singleton, length_beBytes]
  omega

end ND.Spec.Fips180
