import NanoDtls.Impl.Handshake
import NanoDtls.Impl.X509

/-!
# EncryptedExtensions, Certificate, CertificateVerify (`src/handshake/messages.c`)
-/

namespace ND.Impl.Messages

open Asn1 P256 Sha256 Handshake

/-! ## EncryptedExtensions -/

/-- `nd_encrypted_extensions_serialize`. -/
def encryptedExtensionsSerialize (outBufCap : Nat) : Result Bytes := do
  failIf (outBufCap < 2) .badLength
  return [0, 0]

/-- `nd_encrypted_extensions_parse`. -/
def encryptedExtensionsParse (buf : Bytes) : Result Unit := do
  let r := Reader.init (.ofBytes buf)
  let (extLen, r) ← r.u16 .truncated
  let r ← r.skip .badLength extLen
  failIf (r.pos ≠ r.span.len) .badLength

/-! ## Certificate -/

/-- `ND_CERTIFICATE_MSG_MAX_CERTS`. -/
def certificateMsgMaxCerts : Nat := 4

open Writer in
/-- One entry of the list: the certificate and its empty extensions. -/
def certificateEntry (w : Writer) (der : Bytes) : Writer := w |> withLen 3 (bytes der) |> withLen 2 id

open Writer in
/-- `nd_certificate_serialize`. -/
def certificateSerialize (certDer : List Bytes) (outBufCap : Nat) : Result Bytes := do
  failIf (certDer.length = 0 ∨ certificateMsgMaxCerts < certDer.length) .badArg
  Writer.init outBufCap |> u8 0x00 |> withLen 3 (fun w => certDer.foldl certificateEntry w) |> finish

/-- `out_msg->cert_der[count] = cert_data`, into an array of `ND_CERTIFICATE_MSG_MAX_CERTS`. -/
def storeCert (certs : List Span) (certData : Span) : Result (List Span) :=
  if certs.length < certificateMsgMaxCerts then .ok (certs ++ [certData]) else .error .ub

/-- The loop of `nd_certificate_parse`; a turn reads at least five bytes. -/
def certificateLoop : Nat → List Span → Reader → Result (List Span)
  | 0, _, _ => .error .ub
  | fuel + 1, certs, lr =>
    if lr.more then do
      failIf (certificateMsgMaxCerts ≤ certs.length) .unsupported
      let (certLen, lr) ← lr.u24 .truncated
      let (certData, lr) ← lr.view .badLength certLen
      let (extLen, lr) ← lr.u16 .truncated
      let lr ← lr.skip .badLength extLen
      let certs ← storeCert certs certData
      certificateLoop fuel certs lr
    else .ok certs

/-- `nd_certificate_parse`: the certificates, as views into `buf`. -/
def certificateParse (buf : Bytes) : Result (List Span) := do
  let r := Reader.init (.ofBytes buf)
  let (ctxLen, r) ← r.u8 .truncated
  let r ← r.skip .badLength ctxLen
  let (listLen, r) ← r.u24 .truncated
  let (listData, _) ← r.view .badLength listLen
  let certs ← certificateLoop (listData.len + 1) [] (.init listData)
  failIf (certs.length = 0) .badArg
  return certs

/-! ## CertificateVerify -/

/-- `ND_SIGSCHEME_ECDSA_SECP256R1_SHA256`. -/
def sigschemeEcdsaSecp256r1Sha256 : Nat := 0x0403

/-- `ND_CERT_VERIFY_CONTEXT_SERVER`. -/
def certVerifyContextServer : Bytes := cString "TLS 1.3, server CertificateVerify"

/-- `ND_CERT_VERIFY_CONTENT_MAX`. -/
def certVerifyContentMax : Nat := 64 + 34 + 1 + 32

/-- `nd_certificate_verify_msg`. -/
structure CertificateVerifyMsg where
  algorithm : Nat
  signature : Span

/-- `nd_certificate_verify_parse`. -/
def certificateVerifyParse (buf : Bytes) : Result CertificateVerifyMsg := do
  let r := Reader.init (.ofBytes buf)
  let (algorithm, r) ← r.u16 .truncated
  let (sigLen, r) ← r.u16 .truncated
  let (sig, r) ← r.view .badLength sigLen
  failIf (r.pos ≠ r.span.len) .badLength
  return ⟨algorithm, sig⟩

/-- `nd_certificate_verify_content`. -/
def certificateVerifyContent (contextString : Bytes) (transcriptHash : BytesN 32) (outBufCap : Nat) :
    Result Bytes := do
  failIf (outBufCap < 64 + contextString.length + 1 + 32) .badLength
  return List.replicate 64 0x20 ++ contextString ++ [0x00] ++ transcriptHash.1

/-- `nd_certificate_verify_check`. -/
def certificateVerifyCheck (msg : CertificateVerifyMsg) (contextString : Bytes)
    (transcriptHash peerQx peerQy : BytesN 32) : Result Unit := do
  failIf (msg.algorithm ≠ sigschemeEcdsaSecp256r1Sha256) .unsupported
  let content ← certificateVerifyContent contextString transcriptHash certVerifyContentMax
  let hash := sha256 content
  let (r, s) ← readEcdsaSigValue 64 msg.signature
  p256EcdsaVerify peerQx peerQy hash r s

end ND.Impl.Messages
