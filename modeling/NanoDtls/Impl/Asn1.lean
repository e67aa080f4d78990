import NanoDtls.Impl.Wire

/-!
# DER (`src/x509/asn1.c`)

`w` is the width of `size_t` in bits; sums of sizes are taken modulo `2^w`.
-/

namespace ND.Impl.Asn1

def tagBoolean : Byte := 0x01
def tagInteger : Byte := 0x02
def tagBitString : Byte := 0x03
def tagOctetString : Byte := 0x04
def tagOid : Byte := 0x06
def tagUtcTime : Byte := 0x17
def tagGeneralizedTime : Byte := 0x18
def tagSequence : Byte := 0x30

/-- `ND_ASN1_TAG_CTX`. -/
def tagCtx (n : Byte) : Byte := 0xA0 ||| n

/-- `nd_asn1_tlv`. -/
structure Tlv where
  tag : Byte
  constructed : Bool
  headerLen : Nat
  value : Span
deriving DecidableEq

/-- The length octets after `len0`: where the value starts and its length. -/
def parseLen (w : Nat) (s : Span) (len0 : Byte) : Result (Nat × Nat) := do
  if len0 &&& 0x80 = 0 then return (2, len0.toNat % 2 ^ w)
  else do
    let nbytes := (len0 &&& 0x7F).toNat
    failIf (nbytes = 0) .unsupported
    failIf (w / 8 < nbytes) .badLength
    failIf (s.len < (2 + nbytes) % 2 ^ w) .truncated
    let octets ← readSlice s.bytes 2 nbytes
    return (2 + nbytes, beNat octets % 2 ^ w)

/-- `nd_asn1_parse_tlv`. -/
def parseTlv (w : Nat) (s : Span) : Result Tlv := do
  failIf (s.len < 2) .truncated
  let tag ← readAt s.bytes 0
  failIf (tag &&& 0x1F = 0x1F) .unsupported
  let len0 ← readAt s.bytes 1
  let (pos, valueLen) ← parseLen w s len0
  failIf ((pos + valueLen) % 2 ^ w < pos) .badLength
  failIf (s.len < (pos + valueLen) % 2 ^ w) .badLength
  let value ← s.sub pos valueLen
  return ⟨tag, tag &&& 0x20 != 0, pos, value⟩

/-- `nd_asn1_reader`. -/
structure AsnReader where
  span : Span
  pos : Nat

namespace AsnReader

/-- `nd_asn1_reader_init`. -/
def init (s : Span) : AsnReader := ⟨s, 0⟩

/-- `nd_asn1_reader_done`. -/
def done (r : AsnReader) : Bool := r.span.len ≤ r.pos

/-- `nd_asn1_reader_next`. -/
def next (w : Nat) (r : AsnReader) : Result (Tlv × AsnReader) := do
  failIf (r.span.len ≤ r.pos) .truncated
  let rest ← r.span.sub r.pos (r.span.len - r.pos)
  let tlv ← parseTlv w rest
  return (tlv, { r with pos := (r.pos + (tlv.headerLen + tlv.value.len)) % 2 ^ w })

/-- The whole TLV that `next` has just read from `start` on: `buf + start`, of the length of its
header and value. -/
def tlvView (r : AsnReader) (start : Nat) (tlv : Tlv) : Result Span :=
  r.span.sub start (tlv.headerLen + tlv.value.len)

end AsnReader

/-- `nd_asn1_read_uint_fixed`. -/
def readUintFixed (tlv : Tlv) (outLen : Nat) : Result (BytesN outLen) := do
  failIf (tlv.tag ≠ tagInteger) .badArg
  failIf (tlv.value.len = 0) .badLength
  let p0 ← readAt tlv.value.bytes 0
  let stripped : Bool := 1 < tlv.value.len && p0 == 0
  let p := if stripped then tlv.value.bytes.drop 1 else tlv.value.bytes
  failIf (p.length = 0 ∨ outLen < p.length) .badLength
  let top ← readAt p 0
  failIf (stripped = false ∧ top &&& 0x80 ≠ 0) .unsupported
  bytesN outLen (List.replicate (outLen - p.length) 0 ++ p)

/-- `nd_asn1_read_bitstring_bytes`. -/
def readBitstringBytes (tlv : Tlv) : Result Span := do
  failIf (tlv.tag ≠ tagBitString) .badArg
  failIf (tlv.value.len < 1) .badLength
  let unused ← readAt tlv.value.bytes 0
  failIf (unused ≠ 0) .unsupported
  tlv.value.sub 1 (tlv.value.len - 1)

/-- `while (start < 31 && val[start] == 0) start++`: the value without leading zero bytes, at least
one byte of it. -/
def dropZeros : Bytes → Bytes
  | [] => []
  | [b] => [b]
  | b :: l => if b = 0 then dropZeros l else b :: l

/-- `der_encode_uint32`. -/
def derEncodeUint32 (val : BytesN 32) : Bytes :=
  let digits := dropZeros val.1
  let needPad := digits.headD 0 &&& 0x80 != 0
  let content := (if needPad then [0x00] else []) ++ digits
  [tagInteger] ++ beBytes 1 content.length ++ content

/-- `nd_asn1_write_ecdsa_sig_value`. -/
def writeEcdsaSigValue (r s : BytesN 32) (outBufCap : Nat) : Result Bytes := do
  let body := derEncodeUint32 r ++ derEncodeUint32 s
  failIf (127 < body.length) .badLength
  failIf (outBufCap < 2 + body.length) .badLength
  return [tagSequence] ++ beBytes 1 body.length ++ body

/-- The decoding of an ECDSA-Sig-Value, in `nd_certificate_verify_check` and in `nd_x509_parse`. -/
def readEcdsaSigValue (w : Nat) (sig : Span) : Result (BytesN 32 × BytesN 32) := do
  let seqTlv ← parseTlv w sig
  failIf (seqTlv.tag ≠ tagSequence) .badArg
  let (rTlv, sr) ← (AsnReader.init seqTlv.value).next w
  let (sTlv, _) ← sr.next w
  let r ← readUintFixed rTlv 32
  let s ← readUintFixed sTlv 32
  return (r, s)

end ND.Impl.Asn1
