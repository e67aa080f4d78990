import NanoDtls.Impl.Aead

/-!
# Protected records (RFC 9147 section 4, RFC 8446 sections 5.2 and 5.3)

What a record without a connection ID looks like on the wire, whoever
protects it: the nonce is the IV with the number of the record added to it
bitwise, the plaintext is the content, its type and any padding, and the
header is authenticated with it.
-/

namespace ND.Spec.Record

open ND.Impl ND.Impl.Aead

/-- The number of a record, as 12 bytes, and the IV, combined by exclusive or. -/
def nonce (iv : BytesN 12) (n : Nat) : BytesN 12 := ⟨beBytes 12 (beNat iv.1 ^^^ n), length_beBytes _ _⟩

/-- `001CSLEE` with `C = 0`, the 8 or 16 low bits of the number, and the length if `L = 1`. -/
def header (seq16 lengthPresent : Bool) (epoch n length : Nat) : Bytes :=
  [BitVec.ofNat 8 (0x20 + 8 * seq16.toNat + 4 * lengthPresent.toNat + epoch % 4)] ++
    beBytes (if seq16 then 2 else 1) n ++ if lengthPresent then beBytes 2 length else []

/-- The content, its type and `padding` zero bytes. -/
def innerPlaintext (content : Bytes) (contentType : Byte) (padding : Nat) : Bytes :=
  content ++ [contentType] ++ List.replicate padding 0

/-- What follows the header: the ciphertext and the tag. -/
def payload (key : BytesN 32) (iv : BytesN 12) (n : Nat) (header inner : Bytes) : Bytes :=
  (aeadChacha20Poly1305Encrypt key (nonce iv n) header inner).1 ++
    (aeadChacha20Poly1305Encrypt key (nonce iv n) header inner).2.1

/-- The record number `n` of an epoch, in any of the shapes. -/
def record (key : BytesN 32) (iv : BytesN 12) (epoch n : Nat) (seq16 lengthPresent : Bool) (content : Bytes)
    (contentType : Byte) (padding : Nat) : Bytes :=
  let inner := innerPlaintext content contentType padding
  let header := header seq16 lengthPresent epoch n (inner.length + 16)
  header ++ payload key iv n header inner

end ND.Spec.Record
