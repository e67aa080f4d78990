import NanoDtls.Impl.Aead
import NanoDtls.Impl.Sha256
import NanoDtls.Impl.Wire

/-!
# Handshake framing, transcript and key schedule

`src/handshake/header.c`, `transcript.c` and `key_schedule.c`. The transcript
carries a list of the messages that were added, which the C does not keep:
`fed` says what the running hash is the hash of.
-/

namespace ND.Impl.Handshake

open Sha256

/-! ## The Handshake header -/

/-- `nd_handshake_type`. -/
def hsClientHello : Byte := 1
def hsServerHello : Byte := 2
def hsEncryptedExtensions : Byte := 8
def hsCertificate : Byte := 11
def hsCertificateVerify : Byte := 15
def hsFinished : Byte := 20

/-- `ND_HANDSHAKE_HDR_LEN`. -/
def handshakeHdrLen : Nat := 12

/-- `nd_handshake_hdr`. -/
structure HandshakeHdr where
  msgType : Byte
  length : Nat
  messageSeq : Nat
  fragmentOffset : Nat
  fragmentLength : Nat
deriving DecidableEq

/-- `nd_handshake_parse`: the header and the fragment. -/
def handshakeParse (buf : Bytes) : Result (HandshakeHdr × Span) := do
  failIf (buf.length < handshakeHdrLen) .truncated
  let msgType ← readAt buf 0
  let length ← beNat <$> readSlice buf 1 3
  let messageSeq ← beNat <$> readSlice buf 4 2
  let fragmentOffset ← beNat <$> readSlice buf 6 3
  let fragmentLength ← beNat <$> readSlice buf 9 3
  failIf (buf.length - handshakeHdrLen < fragmentLength) .badLength
  let fragment ← (Span.ofBytes buf).sub handshakeHdrLen fragmentLength
  return (⟨msgType, length, messageSeq, fragmentOffset, fragmentLength⟩, fragment)

/-- `nd_handshake_serialize`. -/
def handshakeSerialize (hdr : HandshakeHdr) (fragment : Bytes) (outBufCap : Nat) : Result Bytes := do
  failIf (0xFFFFFF < hdr.length ∨ 0xFFFFFF < hdr.fragmentOffset ∨ 0xFFFFFF < hdr.fragmentLength) .badArg
  failIf (hdr.fragmentLength ≠ fragment.length) .badArg
  failIf (outBufCap < handshakeHdrLen + fragment.length) .badLength
  return [hdr.msgType] ++ beBytes 3 hdr.length ++ beBytes 2 hdr.messageSeq ++ beBytes 3 hdr.fragmentOffset ++
    beBytes 3 hdr.fragmentLength ++ fragment

/-! ## The transcript -/

/-- `nd_transcript`, with the messages it was fed. -/
structure Transcript where
  ctx : Sha256Ctx
  fed : List Bytes
  ctx_eq : ctx = fed.foldl sha256Update sha256Init

/-- `nd_transcript_init`. -/
def transcriptInit : Transcript := ⟨sha256Init, [], rfl⟩

/-- `nd_transcript_add`. -/
def transcriptAdd (t : Transcript) (msg : Bytes) : Transcript where
  ctx := sha256Update t.ctx msg
  fed := t.fed ++ [msg]
  ctx_eq := by rw [List.foldl_append, ← t.ctx_eq]; rfl

/-- `nd_transcript_snapshot`: the digest, and the transcript and the local `copy` as they are after it. -/
def transcriptSnapshotInto (t : Transcript) : BytesN 32 × Transcript × Sha256Ctx :=
  let copy := t.ctx
  let (outHash, copy) := sha256Final copy
  (outHash, t, copy)

/-- The digest of `nd_transcript_snapshot`. -/
def transcriptSnapshot (t : Transcript) : BytesN 32 := (transcriptSnapshotInto t).1

/-- `wrap_and_add`: a body in a Handshake header, added to the transcript. -/
def wrapAndAdd (t : Transcript) (msgType : Byte) (messageSeq : Nat) (body : Bytes) (outCap : Nat) :
    Result (Bytes × Transcript) := do
  let hdr : HandshakeHdr :=
    { msgType := msgType, length := body.length % 2 ^ 32, messageSeq := messageSeq, fragmentOffset := 0
      fragmentLength := body.length % 2 ^ 32 }
  let out ← handshakeSerialize hdr body outCap
  return (out, transcriptAdd t out)

/-! ## The key schedule -/

/-- A C string without its terminating zero. -/
def cString (s : String) : Bytes := s.toList.map fun c => BitVec.ofNat 8 c.toNat

/-- `ND_HKDF_LABEL_PREFIX_DTLS13`. -/
def hkdfLabelPreDtls13 : Bytes := cString "dtls13"

/-- `nd_handshake_keys`. -/
structure HandshakeKeys where
  handshakeSecret : BytesN 32
  clientHandshakeTrafficSecret : BytesN 32
  serverHandshakeTrafficSecret : BytesN 32
  clientWriteKey : BytesN 32
  clientWriteIv : BytesN 12
  serverWriteKey : BytesN 32
  serverWriteIv : BytesN 12
deriving DecidableEq

/-- `nd_derive_handshake_keys`. -/
def deriveHandshakeKeys (labelPre : Bytes) (sharedSecret helloTranscriptHash : BytesN 32) :
    Result HandshakeKeys := do
  let earlySecret ← hkdfExtract (zeros 32).1 (zeros 32).1
  let emptyHash := sha256 []
  let derivedEarly ← deriveSecret earlySecret.1 labelPre (cString "derived") emptyHash.1
  let handshakeSecret ← hkdfExtract derivedEarly.1 sharedSecret.1
  let client ← deriveSecret handshakeSecret.1 labelPre (cString "c hs traffic") helloTranscriptHash.1
  let server ← deriveSecret handshakeSecret.1 labelPre (cString "s hs traffic") helloTranscriptHash.1
  let clientWriteKey ← hkdfExpandLabel client.1 labelPre (cString "key") [] 32
  let clientWriteIv ← hkdfExpandLabel client.1 labelPre (cString "iv") [] 12
  let serverWriteKey ← hkdfExpandLabel server.1 labelPre (cString "key") [] 32
  let serverWriteIv ← hkdfExpandLabel server.1 labelPre (cString "iv") [] 12
  return ⟨handshakeSecret, client, server, clientWriteKey, clientWriteIv, serverWriteKey, serverWriteIv⟩

/-- `nd_finished_compute`. -/
def finishedCompute (labelPre : Bytes) (baseKey transcriptHash : BytesN 32) : Result (BytesN 32) := do
  let finishedKey ← hkdfExpandLabel baseKey.1 labelPre (cString "finished") [] 32
  return hmacSha256 finishedKey.1 transcriptHash.1

/-- `nd_finished_verify`. -/
def finishedVerify (labelPre : Bytes) (baseKey transcriptHash receivedVerifyData : BytesN 32) : Result Unit := do
  let computed ← finishedCompute labelPre baseKey transcriptHash
  failIf (Aead.diffBytes computed.1 receivedVerifyData.1 ≠ 0) .authFailed

end ND.Impl.Handshake
