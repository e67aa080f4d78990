import NanoDtls.Spec.Fips180

/-!
# HMAC and HKDF-Expand

HMAC with SHA-256 on whole strings, and HKDF-Expand of RFC 5869: the blocks
`T(1)`, `T(2)`, ... one after the other, each from the one before it, the
`info` and its number in one octet.
-/

namespace ND.Spec.Hkdf

open Fips180 (sha256)

/-- The key filled up with zeros to a block of 64 bytes; a longer key is hashed first. -/
def paddedKey (key : Bytes) : Bytes :=
  let short := if key.length ≤ 64 then key else sha256 key
  short ++ List.replicate (64 - short.length) 0

def hmac (key text : Bytes) : Bytes :=
  let inner := sha256 ((paddedKey key).map (· ^^^ 0x36) ++ text)
  sha256 ((paddedKey key).map (· ^^^ 0x5c) ++ inner)

/-- `T(i)`, for `i` below 256. -/
def T (prk info : Bytes) : Nat → Bytes
  | 0 => []
  | i + 1 => hmac prk (T prk info i ++ info ++ beBytes 1 (i + 1))

/-- `T(1) | T(2) | ... | T(n)`. -/
def blocks (prk info : Bytes) (n : Nat) : Bytes := (List.range n).flatMap fun i => T prk info (i + 1)

/-- The number of blocks that `len` bytes need. -/
def blockCount (len : Nat) : Nat := (len + 31) / 32

/-- The output of HKDF-Expand. -/
def expand (prk info : Bytes) (len : Nat) : Bytes := (blocks prk info (blockCount len)).take len

end ND.Spec.Hkdf
