import NanoDtls.Impl.P256

/-!
# The signer of the demo server (`tools/p256_sign_demo.c`)

`draws` is what the calls of `nd_random_bytes` return: 32 bytes, or nothing if
a call fails.
-/

namespace ND.Impl.Sign

open P256

/-- An attempt with the nonce `k`: a signature, or nothing at a `continue`. The coordinates of a point at infinity have
no value that could be read. -/
def signAttempt (d e k : Bn256) : Result (Option (Bn256 × Bn256)) := do
  if bnIsZero k ∨ 0 ≤ bnCmp k P256_N then return none
  else do
    match ← pointScalarMult k (pointFromAffine P256_GX P256_GY) with
    | .infinity => throw .ub
    | .jacobian x y z => do
      let (r, _) ← pointToAffine x y z
      let r ← modReduceOnce r P256_N
      if bnIsZero r then return none
      else do
        let kInv ← modInv k P256_N
        let rd ← modMul r d P256_N
        let ePlusRd := modAdd e rd P256_N
        let s ← modMul kInv ePlusRd P256_N
        if bnIsZero s then return none else return some (r, s)

/-- The loop over `attempt`. -/
def signLoop (draws : Nat → Option (BytesN 32)) (d e : Bn256) : Nat → Nat → Result (BytesN 32 × BytesN 32)
  | 0, _ => .error .badArg
  | left + 1, attempt =>
    match draws attempt with
    | none => .error .badArg
    | some kBytes => do
      match ← signAttempt d e (bnFromBytesBe kBytes) with
      | some (r, s) => return (bnToBytesBe r, bnToBytesBe s)
      | none => signLoop draws d e left (attempt + 1)

/-- `nd_demo_p256_ecdsa_sign`. -/
def demoP256EcdsaSign (draws : Nat → Option (BytesN 32)) (privkeyD hash : BytesN 32) :
    Result (BytesN 32 × BytesN 32) := do
  let e ← modReduceOnce (bnFromBytesBe hash) P256_N
  signLoop draws (bnFromBytesBe privkeyD) e 64 0

end ND.Impl.Sign
