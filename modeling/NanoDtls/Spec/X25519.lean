import NanoDtls.Framework.Bytes
import Mathlib.Data.ZMod.Basic

/-!
# X25519 as RFC 7748 section 5 states it

The Montgomery ladder over any commutative ring, and the function on byte
strings over the integers modulo `2^255 - 19`.
-/

namespace ND.Spec.X25519

/-- The field's prime. -/
def p : Nat := 2 ^ 255 - 19

instance : NeZero p := ⟨by decide⟩

section Ladder

variable {F : Type _} [CommRing F]

/-- The variables of the ladder. -/
structure Ladder (F : Type _) where
  x2 : F
  z2 : F
  x3 : F
  z3 : F
  swap : Bool

def cswap (swap : Bool) (a b : F) : F × F := if swap then (b, a) else (a, b)

/-- One turn of the loop, for bit `t` of `k`. -/
def ladderStep (x1 : F) (k : Nat) (s : Ladder F) (t : Nat) : Ladder F :=
  let kt := k.testBit t
  let swap := s.swap ^^ kt
  let (x2, x3) := cswap swap s.x2 s.x3
  let (z2, z3) := cswap swap s.z2 s.z3
  let A := x2 + z2
  let AA := A ^ 2
  let B := x2 - z2
  let BB := B ^ 2
  let E := AA - BB
  let C := x3 + z3
  let D := x3 - z3
  let DA := D * A
  let CB := C * B
  { x2 := AA * BB
    z2 := E * (AA + 121665 * E)
    x3 := (DA + CB) ^ 2
    z3 := x1 * (DA - CB) ^ 2
    swap := kt }

/-- The ladder state after the bits of `k` from 254 down to 0. -/
def ladderRun (k : Nat) (u : F) : Ladder F :=
  (List.range 255).reverse.foldl (ladderStep u k) ⟨1, 0, u, 1, false⟩

/-- `x_2` and `z_2` at the end. -/
def ladder (k : Nat) (u : F) : F × F :=
  let s := ladderRun k u
  ((cswap s.swap s.x2 s.x3).1, (cswap s.swap s.z2 s.z3).1)

end Ladder

/-- `decodeScalar25519`: bits 0 to 2 and 255 are cleared, bit 254 is set. -/
def decodeScalar25519 (k : BytesN 32) : Nat := 2 ^ 254 + (leNat k.1 % 2 ^ 254 - leNat k.1 % 8)

/-- `decodeUCoordinate`: bit 255 is ignored, and the value need not be reduced. -/
def decodeUCoordinate (u : BytesN 32) : ZMod p := (leNat u.1 % 2 ^ 255 : Nat)

/-- `X25519(k, u)`. -/
def x25519 (k u : BytesN 32) : BytesN 32 :=
  let xz := ladder (decodeScalar25519 k) (decodeUCoordinate u)
  ⟨leBytes 32 (xz.1 * xz.2 ^ (p - 2)).val, by simp⟩

/-- The public key of a private key: `X25519(k, 9)`. -/
def publicKey (k : BytesN 32) : BytesN 32 := x25519 k ⟨leBytes 32 9, by simp⟩

end ND.Spec.X25519
