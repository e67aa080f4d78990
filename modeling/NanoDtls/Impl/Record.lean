import NanoDtls.Impl.Aead

/-!
# Records and their protection (`src/record.c`, `src/record_protect.c`)

The two record headers (`nd_plaintext_*`, `nd_unified_*`), the reconstruction
of epochs and sequence numbers, and the AEAD applied to unified-header
records. Buffers the C fills are the byte strings it writes to them.
-/

namespace ND.Impl.Record

open Aead

/-! ## DTLSPlaintext -/

/-- `ND_PLAINTEXT_HDR_LEN`. -/
def plaintextHdrLen : Nat := 13

/-- `nd_plaintext_hdr`. -/
structure PlaintextHdr where
  type : Byte
  legacyVersion : Nat
  epoch : Nat
  sequenceNumber : Nat
  length : Nat
deriving DecidableEq

/-- `nd_plaintext_parse`: the header and the fragment. -/
def plaintextParse (buf : Bytes) : Result (PlaintextHdr × Bytes) := do
  failIf (buf.length < plaintextHdrLen) .truncated
  let type ← readAt buf 0
  let legacyVersion ← beNat <$> readSlice buf 1 2
  let epoch ← beNat <$> readSlice buf 3 2
  let sequenceNumber ← beNat <$> readSlice buf 5 6
  let length ← beNat <$> readSlice buf 11 2
  failIf (buf.length - plaintextHdrLen < length) .badLength
  let fragment ← readSlice buf plaintextHdrLen length
  return (⟨type, legacyVersion, epoch, sequenceNumber, length⟩, fragment)

/-- `nd_plaintext_serialize`. -/
def plaintextSerialize (hdr : PlaintextHdr) (fragment : Bytes) (outBufCap : Nat) : Result Bytes := do
  failIf (0xFFFFFFFFFFFF < hdr.sequenceNumber) .badArg
  failIf (0xFFFF < fragment.length) .badArg
  failIf (outBufCap < plaintextHdrLen + fragment.length) .badLength
  return [hdr.type] ++ beBytes 2 hdr.legacyVersion ++ beBytes 2 hdr.epoch ++
    beBytes 6 hdr.sequenceNumber ++ beBytes 2 fragment.length ++ fragment

/-! ## The unified header -/

def unifiedFixedBitsMask : Byte := 0xE0
def unifiedFixedBitsVal : Byte := 0x20
def unifiedCidBit : Byte := 0x10
def unifiedSeqlenBit : Byte := 0x08
def unifiedLenBit : Byte := 0x04
def unifiedEpochMask : Byte := 0x03

/-- `nd_unified_hdr`. The connection ID is its bytes. -/
structure UnifiedHdr where
  cidPresent : Bool
  seqLenIs16bit : Bool
  lengthPresent : Bool
  epochLow2 : Byte
  cid : Bytes
  sequenceNumber : Nat
  length : Nat
deriving DecidableEq

/-- `nd_unified_parse`: the header, the offset of the payload and the payload. -/
def unifiedParse (buf : Bytes) (cidLen : Nat) : Result (UnifiedHdr × Nat × Bytes) := do
  failIf (buf.length < 1) .truncated
  let b0 ← readAt buf 0
  failIf (b0 &&& unifiedFixedBitsMask ≠ unifiedFixedBitsVal) .notUnified
  let cidPresent := b0 &&& unifiedCidBit != 0
  let seq16 := b0 &&& unifiedSeqlenBit != 0
  let lenPresent := b0 &&& unifiedLenBit != 0
  let epochLow2 := b0 &&& unifiedEpochMask
  failIf (cidPresent ∧ cidLen = 0) .badArg
  let need := szAdd (szAdd (szAdd 1 (if cidPresent then cidLen else 0)) (if seq16 then 2 else 1))
    (if lenPresent then 2 else 0)
  failIf (buf.length < need) .truncated
  let cid ← readSlice buf 1 (if cidPresent then cidLen else 0)
  let off := 1 + if cidPresent then cidLen else 0
  let seq ← beNat <$> readSlice buf off (if seq16 then 2 else 1)
  let off := off + if seq16 then 2 else 1
  -- without a length field the payload runs to the end of the datagram, modulo its 16 bits
  let length ← beNat <$> readSlice buf off (if lenPresent then 2 else 0)
  let off := off + if lenPresent then 2 else 0
  let length := if lenPresent then length else (buf.length - off) % 2 ^ 16
  failIf (lenPresent ∧ buf.length - off < length) .badLength
  let payload ← readSlice buf off length
  return ({ cidPresent := cidPresent, seqLenIs16bit := seq16, lengthPresent := lenPresent,
            epochLow2 := epochLow2, cid := cid, sequenceNumber := seq, length := length }, off, payload)

/-- What `nd_unified_parse` writes through its out pointers: `cid` and `*out_payload` point into `buf` and are offsets
here, `length` is also `*out_payload_len`. -/
structure UnifiedView where
  cidPresent : Bool
  seqLenIs16bit : Bool
  lengthPresent : Bool
  epochLow2 : Byte
  cid : Option Nat
  cidLen : Nat
  sequenceNumber : Nat
  length : Nat
  payload : Nat
deriving DecidableEq

/-- The part of `nd_unified_parse` from `buf[off]` on, where `off` is behind the connection ID: the sequence number, the
length of the payload and its offset. All offsets are sums of `size_t`. -/
def unifiedFieldsAt (buf : Bytes) (seq16 lenPresent : Bool) (off : Nat) : Result (Nat × Nat × Nat) := do
  let seq ← beNat <$> readBytes buf off (if seq16 then 2 else 1)
  let off := szAdd off (if seq16 then 2 else 1)
  let length ← beNat <$> readBytes buf off (if lenPresent then 2 else 0)
  let off := szAdd off (if lenPresent then 2 else 0)
  let length := if lenPresent then length else szSub buf.length off % 2 ^ 16
  failIf (lenPresent ∧ szSub buf.length off < length) .badLength
  return (seq, length, off)

/-- `nd_unified_parse` with its pointers, for every `cid_len`: the connection ID and the payload are not read. -/
def unifiedParseView (buf : Bytes) (cidLen : Nat) : Result UnifiedView := do
  failIf (buf.length < 1) .truncated
  let b0 ← readAt buf 0
  failIf (b0 &&& unifiedFixedBitsMask ≠ unifiedFixedBitsVal) .notUnified
  let cidPresent := b0 &&& unifiedCidBit != 0
  let seq16 := b0 &&& unifiedSeqlenBit != 0
  let lenPresent := b0 &&& unifiedLenBit != 0
  let epochLow2 := b0 &&& unifiedEpochMask
  failIf (cidPresent ∧ cidLen = 0) .badArg
  let need := szAdd (szAdd (szAdd 1 (if cidPresent then cidLen else 0)) (if seq16 then 2 else 1))
    (if lenPresent then 2 else 0)
  failIf (buf.length < need) .truncated
  let (seq, length, payload) ← unifiedFieldsAt buf seq16 lenPresent (szAdd 1 (if cidPresent then cidLen else 0))
  return { cidPresent := cidPresent, seqLenIs16bit := seq16, lengthPresent := lenPresent, epochLow2 := epochLow2,
           cid := if cidPresent then some 1 else none, cidLen := if cidPresent then cidLen else 0,
           sequenceNumber := seq, length := length, payload := payload }

/-- The first byte of a unified header. -/
def unifiedByte0 (cidPresent seq16 lenPresent : Bool) (epochLow2 : Byte) : Byte :=
  unifiedFixedBitsVal ||| (if cidPresent then unifiedCidBit else 0) |||
    (if seq16 then unifiedSeqlenBit else 0) ||| (if lenPresent then unifiedLenBit else 0) |||
    (epochLow2 &&& unifiedEpochMask)

/-- `nd_unified_serialize`. -/
def unifiedSerialize (hdr : UnifiedHdr) (payload : Bytes) (outBufCap : Nat) : Result Bytes := do
  failIf (hdr.cidPresent ∧ hdr.cid.length = 0) .badArg
  failIf (¬ hdr.seqLenIs16bit ∧ 0xFF < hdr.sequenceNumber) .badArg
  failIf (hdr.lengthPresent ∧ 0xFFFF < payload.length) .badArg
  let total := szAdd (szAdd (szAdd (szAdd 1 (if hdr.cidPresent then hdr.cid.length else 0))
    (if hdr.seqLenIs16bit then 2 else 1)) (if hdr.lengthPresent then 2 else 0)) payload.length
  failIf (outBufCap < total) .badLength
  let out := [unifiedByte0 hdr.cidPresent hdr.seqLenIs16bit hdr.lengthPresent hdr.epochLow2] ++
    (if hdr.cidPresent then hdr.cid else []) ++
    beBytes (if hdr.seqLenIs16bit then 2 else 1) hdr.sequenceNumber ++
    (if hdr.lengthPresent then beBytes 2 payload.length else []) ++ payload
  -- `total` wrapped around: the writes leave the buffer
  failIf (outBufCap < out.length) .ub
  return out

/-! ## Reconstruction -/

/-- One turn of the loop of `nd_reconstruct_epoch`, on the best candidate so far and its distance. -/
def epochCandidate (highest low2 base : Int) (best : Int × Int) (w : Int) : Int × Int :=
  let candidate := base + w * 4 + low2
  if candidate < 0 ∨ 0xFFFF < candidate then best
  else
    let dist := |candidate - highest|
    if dist < best.2 then (candidate, dist) else best

/-- `nd_reconstruct_epoch`. -/
def reconstructEpoch (highestKnownEpoch : BitVec 16) (wireLow2 : Byte) : BitVec 16 :=
  let low2 := wireLow2.toNat % 4
  let base := highestKnownEpoch.toNat - highestKnownEpoch.toNat % 4
  BitVec.ofInt 16
    ([-1, 0, 1].foldl (epochCandidate highestKnownEpoch.toNat low2 base) (-1, 0x7fffffff)).1

/-- The distance of two `uint64_t`. -/
def seqDist (a b : Nat) : Nat := if b < a then a - b else b - a

/-- The value of a `uint64_t` converted to `int64_t`. -/
def toInt64 (v : Nat) : Int := (BitVec.ofNat 64 v).toInt

/-- One turn of the loop of `nd_reconstruct_sequence_number`. The `int64_t` sum is exact here; where
it does not fit, the exact value and the wrapped one are both outside the 48 bits and skipped. -/
def seqCandidate (highest base truncated win : Nat) (best : Nat × Nat) (w : Int) : Nat × Nat :=
  let candidate := toInt64 base + w * win + truncated
  if candidate < 0 ∨ 0xFFFFFFFFFFFF < candidate then best
  else
    let dist := seqDist candidate.toNat highest
    if dist < best.2 then (candidate.toNat, dist) else best

/-- `nd_reconstruct_sequence_number`. -/
def reconstructSequenceNumber (highestKnownSequence wireValue wireBits : Nat) : Nat :=
  let win := 2 ^ wireBits
  let base := highestKnownSequence - highestKnownSequence % win
  let truncated := wireValue % win
  let best := (base + truncated) % 2 ^ 64
  ([-1, 1].foldl (seqCandidate highestKnownSequence base truncated win)
    (best, seqDist best highestKnownSequence)).1

/-! ## Record protection -/

/-- `ND_RECORD_PROTECT_MAX_INNER`. -/
def recordProtectMaxInner : Nat := 2048

/-- `nd_record_protection`. -/
structure RecordProtection where
  writeKey : BytesN 32
  writeIv : BytesN 12
  nextSendSequence : Nat
  epoch : BitVec 16
deriving DecidableEq

/-- `nd_record_unprotection`. -/
structure RecordUnprotection where
  readKey : BytesN 32
  readIv : BytesN 12
  highestSeenSequence : Nat
  epoch : BitVec 16
deriving DecidableEq

/-- `nd_record_protection_init`. -/
def recordProtectionInit (key : BytesN 32) (iv : BytesN 12) (epoch : BitVec 16) : RecordProtection :=
  ⟨key, iv, 0, epoch⟩

/-- `nd_record_unprotection_init`. -/
def recordUnprotectionInit (key : BytesN 32) (iv : BytesN 12) (epoch : BitVec 16) :
    RecordUnprotection :=
  ⟨key, iv, 0, epoch⟩

/-- `build_nonce`. -/
def buildNonce (iv : BytesN 12) (seq : Nat) : BytesN 12 :=
  ⟨List.zipWith (· ^^^ ·) iv.1 (List.replicate 4 0 ++ beBytes 8 seq), by simp [iv.2]⟩

/-- `write_fixed_shape_header`. -/
def writeFixedShapeHeader (epochLow2 : BitVec 16) (seq16 length : Nat) : Bytes :=
  [unifiedFixedBitsVal ||| unifiedSeqlenBit ||| unifiedLenBit |||
    (BitVec.setWidth 8 epochLow2 &&& unifiedEpochMask)] ++ beBytes 2 seq16 ++ beBytes 2 length

/-- `nd_record_protect`: the record and the state after it. -/
def recordProtect (p : RecordProtection) (contentType : Byte) (plaintext : Bytes) (outBufCap : Nat) :
    Result (Bytes × RecordProtection) := do
  failIf (recordProtectMaxInner < szAdd plaintext.length 1) .badLength
  -- `plaintext_len + 1` wrapped around: the copy leaves `inner`
  failIf (recordProtectMaxInner < plaintext.length + 1) .ub
  let inner := plaintext ++ [contentType]
  let ciphertextLen := inner.length + 16
  failIf (outBufCap < 5 + ciphertextLen) .badLength
  let header := writeFixedShapeHeader (p.epoch &&& 3) (p.nextSendSequence % 2 ^ 16) ciphertextLen
  let nonce := buildNonce p.writeIv p.nextSendSequence
  let (ciphertext, tag) := aeadChacha20Poly1305Encrypt p.writeKey nonce header inner
  return (header ++ ciphertext ++ tag.1,
    { p with nextSendSequence := (p.nextSendSequence + 1) % 2 ^ 64 })

/-- `while (i > 0 && inner[i - 1] == 0) i--`: the inner plaintext without its zero padding. -/
def stripPadding (inner : Bytes) : Bytes := (inner.reverse.dropWhile (· == 0)).reverse

/-- The content and the content type, the last byte that is not padding. -/
def splitInner (inner : Bytes) : Result (Bytes × Byte) :=
  match (stripPadding inner).getLast? with
  | none => .error .badArg
  | some contentType => .ok ((stripPadding inner).dropLast, contentType)

/-- `nd_record_unprotect`: the content, its type and the state after it. -/
def recordUnprotect (u : RecordUnprotection) (buf : Bytes) (plaintextCap : Nat) :
    Result (Bytes × Byte × RecordUnprotection) := do
  let (hdr, headerLen, payload) ← unifiedParse buf 0
  let fullEpoch := reconstructEpoch u.epoch hdr.epochLow2
  failIf (fullEpoch ≠ u.epoch) .unsupported
  let wireBits := if hdr.seqLenIs16bit then 16 else 8
  let fullSeq := reconstructSequenceNumber u.highestSeenSequence hdr.sequenceNumber wireBits
  failIf (payload.length < 16) .badLength
  let ciphertextLen := payload.length - 16
  failIf (recordProtectMaxInner < ciphertextLen) .badLength
  let ciphertext := payload.take ciphertextLen
  let tag ← bytesN 16 (payload.drop ciphertextLen)
  let nonce := buildNonce u.readIv fullSeq
  let inner ← aeadChacha20Poly1305Decrypt u.readKey nonce (buf.take headerLen) ciphertext tag
  let (content, contentType) ← splitInner inner
  failIf (plaintextCap < content.length) .badLength
  return (content, contentType, { u with highestSeenSequence := max u.highestSeenSequence fullSeq })

/-! ## The calls with the memory they write to -/

/-- What `nd_record_protect` writes to: `p`, `out_buf` of `out_buf_cap` bytes and `out_len`. -/
structure ProtectMem where
  p : RecordProtection
  outBuf : Bytes
  outLen : Nat
deriving DecidableEq

/-- `nd_record_protect`: the status, and the memory after the call. -/
def recordProtectInto (contentType : Byte) (plaintext : Bytes) (m : ProtectMem) : Result Unit × ProtectMem :=
  returnIfError (failIf (recordProtectMaxInner < szAdd plaintext.length 1) .badLength) m fun _ =>
  -- `plaintext_len + 1` wrapped around: the copy leaves `inner`
  returnIfError (failIf (recordProtectMaxInner < plaintext.length + 1) .ub) m fun _ =>
  let inner := plaintext ++ [contentType]
  let ciphertextLen := inner.length + 16
  returnIfError (failIf (m.outBuf.length < 5 + ciphertextLen) .badLength) m fun _ =>
  let outBuf := patch m.outBuf 0
    (writeFixedShapeHeader (m.p.epoch &&& 3) (m.p.nextSendSequence % 2 ^ 16) ciphertextLen)
  let nonce := buildNonce m.p.writeIv m.p.nextSendSequence
  -- the additional data is the header in `out_buf`
  let (ciphertext, tag) := aeadChacha20Poly1305Encrypt m.p.writeKey nonce (outBuf.take 5) inner
  let outBuf := patch outBuf 5 ciphertext
  let outBuf := patch outBuf (5 + inner.length) tag.1
  (.ok (), { p := { m.p with nextSendSequence := (m.p.nextSendSequence + 1) % 2 ^ 64 }, outBuf := outBuf,
             outLen := 5 + ciphertextLen })

/-- What `nd_record_unprotect` writes to: `u`, `plaintext_out` of `plaintext_cap` bytes, `plaintext_len` and
`out_content_type`. -/
structure UnprotectMem where
  u : RecordUnprotection
  plaintextOut : Bytes
  plaintextLen : Nat
  outContentType : Byte
deriving DecidableEq

/-- `nd_record_unprotect`: the status, and the memory after the call. -/
def recordUnprotectInto (buf : Bytes) (m : UnprotectMem) : Result Unit × UnprotectMem :=
  returnIfError (unifiedParse buf 0) m fun (hdr, headerLen, payload) =>
  let fullEpoch := reconstructEpoch m.u.epoch hdr.epochLow2
  returnIfError (failIf (fullEpoch ≠ m.u.epoch) .unsupported) m fun _ =>
  let wireBits := if hdr.seqLenIs16bit then 16 else 8
  let fullSeq := reconstructSequenceNumber m.u.highestSeenSequence hdr.sequenceNumber wireBits
  returnIfError (failIf (payload.length < 16) .badLength) m fun _ =>
  let ciphertextLen := payload.length - 16
  returnIfError (failIf (recordProtectMaxInner < ciphertextLen) .badLength) m fun _ =>
  let ciphertext := payload.take ciphertextLen
  returnIfError (bytesN 16 (payload.drop ciphertextLen)) m fun tag =>
  let nonce := buildNonce m.u.readIv fullSeq
  returnIfError (aeadChacha20Poly1305Decrypt m.u.readKey nonce (buf.take headerLen) ciphertext tag) m fun inner =>
  returnIfError (splitInner inner) m fun (content, contentType) =>
  returnIfError (failIf (m.plaintextOut.length < content.length) .badLength) m fun _ =>
  let m := { m with plaintextOut := patch m.plaintextOut 0 content }
  let m := if m.u.highestSeenSequence < fullSeq then { m with u := { m.u with highestSeenSequence := fullSeq } } else m
  (.ok (), { m with plaintextLen := content.length, outContentType := contentType })

end ND.Impl.Record
