import NanoDtls.Framework.Blocks
import NanoDtls.Framework.Bytes
import Mathlib.Algebra.BigOperators.Intervals

/-!
# Poly1305

The authenticator as a polynomial: the chunks of the message are its
coefficients, each with one bit above its highest byte, and it is evaluated
at the clamped first half of the key, modulo the prime `2^130 - 5`. The
second half is added modulo `2^128`.
-/

namespace ND.Spec.Poly1305

def p : Nat := 2 ^ 130 - 5

/-- The bits of `r` that are not cleared. -/
def clampMask : Nat := 0x0ffffffc0ffffffc0ffffffc0fffffff

/-- `r`, the first half of the key, clamped. -/
def r (key : BytesN 32) : Nat := leNat (key.1.take 16) &&& clampMask

/-- `s`, the second half of the key. -/
def s (key : BytesN 32) : Nat := leNat (key.1.drop 16)

/-- The coefficient of a chunk. -/
def coefficient (chunk : Bytes) : Nat := leNat chunk + 2 ^ (8 * chunk.length)

/-- The polynomial with these chunks at `r`: the first has the highest power, the last is multiplied by `r` once. -/
def eval (r : Nat) (chunks : List Bytes) : Nat :=
  ∑ i ∈ Finset.range chunks.length, coefficient (chunks.getD i []) * r ^ (chunks.length - i)

/-- The tag of a message. -/
def mac (key : BytesN 32) (msg : Bytes) : BytesN 16 :=
  ⟨leBytes 16 ((eval (r key) (chunks 16 msg) % p + s key) % 2 ^ 128), by simp⟩

end ND.Spec.Poly1305
