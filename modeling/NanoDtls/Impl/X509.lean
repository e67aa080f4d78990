import NanoDtls.Impl.Asn1
import NanoDtls.Impl.P256
import NanoDtls.Impl.Sha256

/-!
# X.509 certificates (`src/x509/x509.c`)

`nd_x509_parse` one block of the source at a time, and the verification of a
chain. The views of a certificate are offsets into the DER that was parsed.
-/

namespace ND.Impl.X509

open Asn1 P256 Sha256

def oidEcdsaWithSha256 : Bytes := [0x2a, 0x86, 0x48, 0xce, 0x3d, 0x04, 0x03, 0x02]
def oidEcPublicKey : Bytes := [0x2a, 0x86, 0x48, 0xce, 0x3d, 0x02, 0x01]
def oidPrime256v1 : Bytes := [0x2a, 0x86, 0x48, 0xce, 0x3d, 0x03, 0x01, 0x07]
def oidBasicConstraints : Bytes := [0x55, 0x1d, 0x13]

/-- `nd_x509_cert`. -/
structure X509Cert where
  tbsDer : Span
  issuerDer : Span
  subjectDer : Span
  notBefore : Nat
  notAfter : Nat
  pubkeyQx : BytesN 32
  pubkeyQy : BytesN 32
  isCa : Bool
  sigR : BytesN 32
  sigS : BytesN 32
deriving DecidableEq

/-- The certificate parsed from a DER that is `k` bytes into a buffer, as views into that buffer. -/
def X509Cert.shift (k : Nat) (c : X509Cert) : X509Cert :=
  { c with tbsDer := c.tbsDer.shift k, issuerDer := c.issuerDer.shift k, subjectDer := c.subjectDer.shift k }

/-- `oid_eq`. -/
def oidEq (tlv : Tlv) (oid : Bytes) : Bool := tlv.tag == tagOid && tlv.value.bytes == oid

/-- `der_eq`. -/
def derEq (a b : Span) : Bool := a.bytes == b.bytes

/-! ## Times -/

/-- `all_digits`. -/
def allDigits (p : Bytes) : Bool := p.all fun b => 0x30 ≤ b && b ≤ 0x39

/-- The number that decimal digits write: `d2`, and the year of a GeneralizedTime. -/
def decimal (p : Bytes) : Nat := p.foldl (fun v b => v * 10 + (b.toNat - 0x30)) 0

/-- The two digits at `i`. -/
def d2 (p : Bytes) (i : Nat) : Nat := decimal ((p.drop i).take 2)

/-- The digits of a time string of `n` digits and a final `Z`. -/
def timeDigits (tlv : Tlv) (n : Nat) : Result Bytes := do
  failIf (tlv.value.len ≠ n + 1) .badLength
  let z ← readAt tlv.value.bytes n
  failIf (z ≠ 0x5a) .badLength
  let digits ← readSlice tlv.value.bytes 0 n
  failIf (allDigits digits = false) .badLength
  return digits

/-- The canonical `YYYYMMDDHHMMSS` of a year and the ten digits at `i`. -/
def canonicalTime (year : Nat) (p : Bytes) (i : Nat) : Nat :=
  year * 10000000000 + d2 p i * 100000000 + d2 p (i + 2) * 1000000 + d2 p (i + 4) * 10000 + d2 p (i + 6) * 100 +
    d2 p (i + 8)

/-- `parse_time`. -/
def parseTime (tlv : Tlv) : Result Nat := do
  if tlv.tag = tagUtcTime then do
    let p ← timeDigits tlv 12
    let yy := d2 p 0
    return canonicalTime (if 50 ≤ yy then 1900 + yy else 2000 + yy) p 2
  else if tlv.tag = tagGeneralizedTime then do
    let p ← timeDigits tlv 14
    return canonicalTime (decimal (p.take 4)) p 4
  else throw .badArg

/-! ## Extensions -/

variable (w : Nat)

/-- `basicConstraints`, after its OID: whether it sets `is_ca`. -/
def basicConstraints (xr : AsnReader) : Result Bool := do
  let (field, xr) ← xr.next w
  let field ← (if field.tag = tagBoolean then Prod.fst <$> xr.next w else .ok field)
  failIf (field.tag ≠ tagOctetString) .badArg
  let bcSeq ← parseTlv w field.value
  if bcSeq.tag = tagSequence ∧ 0 < bcSeq.value.len then do
    let (caBool, _) ← (AsnReader.init bcSeq.value).next w
    if caBool.tag = tagBoolean ∧ caBool.value.len = 1 then do
      let v ← readAt caBool.value.bytes 0
      return v != 0
    else return false
  else return false

/-- The loop of `scan_extensions` on `is_ca`. A turn reads at least two bytes. -/
def extensionLoop : Nat → Bool → AsnReader → Result Bool
  | 0, _, _ => .error .ub
  | fuel + 1, isCa, er =>
    if er.done then .ok isCa
    else do
      let (ext, er) ← er.next w
      failIf (ext.tag ≠ tagSequence) .badArg
      let (extOid, xr) ← (AsnReader.init ext.value).next w
      let ca ← (if oidEq extOid oidBasicConstraints then basicConstraints w xr else .ok false)
      extensionLoop fuel (isCa || ca) er

/-- `scan_extensions`. -/
def scanExtensions (extListOctets : Tlv) (isCa : Bool) : Result Bool := do
  let extsSeq ← parseTlv w extListOctets.value
  failIf (extsSeq.tag ≠ tagSequence) .badArg
  extensionLoop w (extsSeq.value.len + 1) isCa (.init extsSeq.value)

/-- The loop over the optional fields at the end of a TBSCertificate. -/
def optionalLoop : Nat → Bool → AsnReader → Result Bool
  | 0, _, _ => .error .ub
  | fuel + 1, isCa, r =>
    if r.done then .ok isCa
    else do
      let (opt, r) ← r.next w
      let isCa ← (if opt.tag = tagCtx 3 then scanExtensions w opt isCa else .ok isCa)
      optionalLoop fuel isCa r

/-! ## Certificates -/

/-- The outer signatureAlgorithm. -/
def checkSigAlg (sigAlgTlv : Tlv) : Result Unit := do
  let (oidTlv, _) ← (AsnReader.init sigAlgTlv.value).next w
  failIf (oidEq oidTlv oidEcdsaWithSha256 = false) .unsupported

/-- The signatureValue. -/
def parseSigVal (sigValTlv : Tlv) : Result (BytesN 32 × BytesN 32) := do
  let sigBytes ← readBitstringBytes sigValTlv
  readEcdsaSigValue w sigBytes

/-- The validity: `not_before` and `not_after`. -/
def parseValidity (validityTlv : Tlv) : Result (Nat × Nat) := do
  let (nb, vr) ← (AsnReader.init validityTlv.value).next w
  let (na, _) ← vr.next w
  let notBefore ← parseTime nb
  let notAfter ← parseTime na
  return (notBefore, notAfter)

/-- The algorithm of a SubjectPublicKeyInfo. -/
def checkKeyAlg (algTlv : Tlv) : Result Unit := do
  let (algOid, ar) ← (AsnReader.init algTlv.value).next w
  failIf (oidEq algOid oidEcPublicKey = false) .unsupported
  let (curveOid, _) ← ar.next w
  failIf (oidEq curveOid oidPrime256v1 = false) .unsupported

/-- The coordinates in an uncompressed point. -/
def parseKeyBytes (key : Span) : Result (BytesN 32 × BytesN 32) := do
  failIf (key.len ≠ 1 + 2 * 32) .unsupported
  let form ← readAt key.bytes 0
  failIf (form ≠ 0x04) .unsupported
  let qx ← readSlice key.bytes 1 32
  let qx ← bytesN 32 qx
  let qy ← readSlice key.bytes 33 32
  let qy ← bytesN 32 qy
  match p256PointIsValid qx qy with
  | .ok () => return (qx, qy)
  | .error .ub => throw .ub
  | .error _ => throw .badArg

/-- The SubjectPublicKeyInfo. -/
def parseSpki (spkiTlv : Tlv) : Result (BytesN 32 × BytesN 32) := do
  let (algTlv, sr) ← (AsnReader.init spkiTlv.value).next w
  checkKeyAlg w algTlv
  let (keyBitsTlv, _) ← sr.next w
  let key ← readBitstringBytes keyBitsTlv
  parseKeyBytes key

/-- The optional version and the serial number. -/
def skipSerial (tbsR : AsnReader) : Result AsnReader := do
  let (field, tbsR) ← tbsR.next w
  let (field, tbsR) ← (if field.tag = tagCtx 0 then tbsR.next w else .ok (field, tbsR))
  failIf (field.tag ≠ tagInteger) .badArg
  return tbsR

/-- The fields of a TBSCertificate. -/
structure TbsFields where
  issuerDer : Span
  subjectDer : Span
  validity : Nat × Nat
  pubkey : BytesN 32 × BytesN 32
  isCa : Bool

/-- A Name: a TLV kept whole. -/
def readName (tbsR : AsnReader) : Result (Span × AsnReader) := do
  let (tlv, tbsR') ← tbsR.next w
  let name ← tbsR.tlvView tbsR.pos tlv
  return (name, tbsR')

/-- The inside of the TBSCertificate. -/
def parseTbs (tbsTlv : Tlv) : Result TbsFields := do
  let tbsR ← skipSerial w (.init tbsTlv.value)
  let (_, tbsR) ← tbsR.next w
  let (issuerDer, tbsR) ← readName w tbsR
  let (validityTlv, tbsR) ← tbsR.next w
  let validity ← parseValidity w validityTlv
  let (subjectDer, tbsR) ← readName w tbsR
  let (spkiTlv, tbsR) ← tbsR.next w
  let pubkey ← parseSpki w spkiTlv
  let isCa ← optionalLoop w (tbsR.span.len + 1) false tbsR
  return ⟨issuerDer, subjectDer, validity, pubkey, isCa⟩

/-- `nd_x509_parse`. -/
def x509Parse (der : Bytes) : Result X509Cert := do
  let certTlv ← parseTlv w (.ofBytes der)
  failIf (certTlv.tag ≠ tagSequence) .badArg
  let certR := AsnReader.init certTlv.value
  let (tbsTlv, certR') ← certR.next w
  failIf (tbsTlv.tag ≠ tagSequence) .badArg
  let tbsDer ← certR.tlvView certR.pos tbsTlv
  let (sigAlgTlv, certR') ← certR'.next w
  checkSigAlg w sigAlgTlv
  let (sigValTlv, _) ← certR'.next w
  let (sigR, sigS) ← parseSigVal w sigValTlv
  let tbs ← parseTbs w tbsTlv
  return { tbsDer := tbsDer, issuerDer := tbs.issuerDer, subjectDer := tbs.subjectDer,
           notBefore := tbs.validity.1, notAfter := tbs.validity.2, pubkeyQx := tbs.pubkey.1,
           pubkeyQy := tbs.pubkey.2, isCa := tbs.isCa, sigR := sigR, sigS := sigS }

/-- `nd_x509_verify_signature`. -/
def x509VerifySignature (cert : X509Cert) (issuerQx issuerQy : BytesN 32) : Result Unit :=
  p256EcdsaVerify issuerQx issuerQy (sha256 cert.tbsDer.bytes) cert.sigR cert.sigS

/-- `at_time < not_before || at_time > not_after`. -/
def outsideValidity (cert : X509Cert) (atTime : Nat) : Bool := atTime < cert.notBefore || cert.notAfter < atTime

/-- The second loop of `nd_x509_verify_chain`: each certificate against its signer. -/
def verifyLinks (trustAnchor : X509Cert) : List X509Cert → Result Unit
  | [] => .ok ()
  | cert :: chain => do
    let issuer := chain.headD trustAnchor
    failIf (derEq cert.issuerDer issuer.subjectDer = false) .authFailed
    failIf (issuer.isCa = false) .authFailed
    x509VerifySignature cert issuer.pubkeyQx issuer.pubkeyQy
    verifyLinks trustAnchor chain

/-- `nd_x509_verify_chain`. -/
def x509VerifyChain (chain : List X509Cert) (trustAnchor : X509Cert) (atTime : Nat) : Result Unit := do
  failIf (chain.length = 0) .badArg
  failIf (outsideValidity trustAnchor atTime) .authFailed
  failIf (chain.any (outsideValidity · atTime)) .authFailed
  verifyLinks trustAnchor chain

end ND.Impl.X509
