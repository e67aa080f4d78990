import NanoDtls.Impl.Handshake

/-!
# The key schedule

RFC 8446 section 7.1, with the label prefix of RFC 9147 section 5.9: the
handshake secrets and keys as functions of the shared secret and the hash of
the two hellos, and the `verify_data` of a Finished. HKDF-Expand needs one
block for the lengths that occur.
-/

namespace ND.Spec.KeySchedule

open ND.Impl Sha256 Handshake

/-- HKDF-Expand-Label, for at most one block of output. -/
def expandLabel (n : Nat) (secret label context : Bytes) (_h : n ≤ 32 := by decide) : BytesN n :=
  ⟨(hmacSha256 secret (hkdfLabel n (hkdfLabelPreDtls13 ++ label) context ++ [1])).1.take n, by
    rw [List.length_take, BytesN.length_eq]; omega⟩

/-- The handshake secret. -/
def handshakeSecret (shared : Bytes) : BytesN 32 :=
  let early := hmacSha256 (zeros 32).1 (zeros 32).1
  hmacSha256 (expandLabel 32 early.1 (cString "derived") (sha256 []).1).1 shared

/-- The keys of the handshake epoch. -/
def handshakeKeys (shared helloHash : Bytes) : HandshakeKeys :=
  let secret := handshakeSecret shared
  let client := expandLabel 32 secret.1 (cString "c hs traffic") helloHash
  let server := expandLabel 32 secret.1 (cString "s hs traffic") helloHash
  { handshakeSecret := secret
    clientHandshakeTrafficSecret := client
    serverHandshakeTrafficSecret := server
    clientWriteKey := expandLabel 32 client.1 (cString "key") []
    clientWriteIv := expandLabel 12 client.1 (cString "iv") []
    serverWriteKey := expandLabel 32 server.1 (cString "key") []
    serverWriteIv := expandLabel 12 server.1 (cString "iv") [] }

/-- The key of the MAC in a Finished under a traffic secret. -/
def finishedMacKey (baseKey : Bytes) : BytesN 32 := expandLabel 32 baseKey (cString "finished") []

/-- The `verify_data` of a Finished under a traffic secret. -/
def verifyData (baseKey transcriptHash : Bytes) : BytesN 32 :=
  hmacSha256 (expandLabel 32 baseKey (cString "finished") []).1 transcriptHash

end ND.Spec.KeySchedule
