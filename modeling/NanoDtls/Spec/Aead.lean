import NanoDtls.Spec.ChaCha20
import NanoDtls.Spec.Poly1305

/-!
# AEAD_CHACHA20_POLY1305

RFC 8439, section 2.8. The authenticated string is the additional data and
the ciphertext, each filled up with zeros to a multiple of 16 bytes, then
their lengths as little-endian integers of 64 bits. Its tag is under a key
of its own, from the block with counter 0; the text is encrypted from the
block with counter 1.
-/

namespace ND.Spec.Aead

/-- `pad16`: no bytes if the length is a multiple of 16. -/
def pad16 (x : Bytes) : Bytes :=
  if x.length % 16 = 0 then [] else List.replicate (16 - x.length % 16) 0

/-- `mac_data`. -/
def macData (aad ciphertext : Bytes) : Bytes :=
  aad ++ pad16 aad ++ ciphertext ++ pad16 ciphertext ++ leBytes 8 aad.length ++ leBytes 8 ciphertext.length

/-- `poly1305_key_gen`. -/
def oneTimeKey (key : BytesN 32) (nonce : BytesN 12) : BytesN 32 :=
  ⟨(ChaCha20.block key nonce 0).take 32, by simp [ChaCha20.length_block]⟩

/-- The tag of additional data and a ciphertext. -/
def tag (key : BytesN 32) (nonce : BytesN 12) (aad ciphertext : Bytes) : BytesN 16 :=
  Poly1305.mac (oneTimeKey key nonce) (macData aad ciphertext)

/-- `chacha20_aead_encrypt`. -/
def encrypt (key : BytesN 32) (nonce : BytesN 12) (aad plaintext : Bytes) : Bytes × BytesN 16 :=
  let ciphertext := ChaCha20.encrypt key nonce 1 plaintext
  (ciphertext, tag key nonce aad ciphertext)

/-- Authenticated decryption: nothing, if the tag is not the one of the ciphertext. -/
def decrypt (key : BytesN 32) (nonce : BytesN 12) (aad ciphertext : Bytes) (received : BytesN 16) : Option Bytes :=
  if tag key nonce aad ciphertext = received then some (ChaCha20.encrypt key nonce 1 ciphertext) else none

end ND.Spec.Aead
