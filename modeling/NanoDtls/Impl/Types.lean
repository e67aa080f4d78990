import NanoDtls.Framework.Bytes
import NanoDtls.Framework.Checked

/-!
# Status codes and registry values

`nd_status` without `ND_OK`: a function that returns `nd_status` is modelled
as one that returns `Result α`, where `.ok` is `ND_OK` with the values the C
writes through its out pointers. `Status.ub` is no `nd_status`: it is how the
model reports an access outside a buffer or a signed overflow, so that its
absence can be proven. A shift of a negative value is no `Status.ub`
(`NanoDtls.Impl.X25519`). The checks for `NULL` have no counterpart: no argument
of the model can be missing.
-/

namespace ND.Impl

inductive Status where
  | truncated
  | badLength
  | notUnified
  | badArg
  | authFailed
  | unsupported
  | ub
deriving DecidableEq

abbrev Result := Except Status

/-- `nd_content_type`: `ND_CT_HANDSHAKE`. -/
def ctHandshake : Byte := 22

/-- `ND_VERSION_DTLS1_2` of `nd_legacy_version`. -/
def versionDtls12 : Nat := 0xfefd

/-- `size_t` is 64 bits wide: the sum of two sizes as the C computes it. -/
def szAdd (a b : Nat) : Nat := (a + b) % 2 ^ 64

theorem szAdd_eq {a b : Nat} (h : a + b < 2 ^ 64) : szAdd a b = a + b := Nat.mod_eq_of_lt h

/-- The difference of two sizes. -/
def szSub (a b : Nat) : Nat := (a + 2 ^ 64 - b) % 2 ^ 64

/-- Byte `i` of a buffer. -/
def readAt (buf : Bytes) (i : Nat) : Result Byte :=
  match buf[i]? with
  | some b => .ok b
  | none => .error .ub

/-- The bytes `buf[off .. off + n)`. -/
def readSlice (buf : Bytes) (off n : Nat) : Result Bytes :=
  if off + n ≤ buf.length then .ok ((buf.drop off).take n) else .error .ub

/-- `buf[off]`, `buf[off + 1]`, ..., `buf[off + n - 1]`, each index a `size_t`. -/
def readBytes (buf : Bytes) (off n : Nat) : Result Bytes := (List.range n).mapM fun i => readAt buf (szAdd off i)

/-- A buffer read as an array of `n` bytes. -/
def bytesN (n : Nat) (buf : Bytes) : Result (BytesN n) :=
  if h : buf.length = n then .ok ⟨buf, h⟩ else .error .ub

end ND.Impl
