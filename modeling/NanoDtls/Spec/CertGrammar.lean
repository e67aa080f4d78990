import NanoDtls.Spec.X509

/-!
# The language of certificates

Every byte string that the certificate parser takes, as a grammar with the
values that are read off it; `Spec.X509` has the encodings of the profile,
which are some of them. A length may have more octets than it needs, most
tags are free where only a position is fixed, and anything may follow the last
field of a construction, except in the two lists: the optional fields at the
end of a TBSCertificate and the extensions.
-/

namespace ND.Spec.CertGrammar

open X509 (ecdsaWithSha256 ecPublicKey prime256v1 idBasicConstraints)

/-! ## TLVs -/

/-- The octets of a length. -/
inductive Length : Bytes → Nat → Prop
  | short {n : Nat} : n < 128 → Length [BitVec.ofNat 8 n] n
  | long {octets : Bytes} : octets ≠ [] → octets.length ≤ 8 →
    Length (BitVec.ofNat 8 (128 + octets.length) :: octets) (beNat octets)

/-- `Encodes tag value b`: the string `b` is a TLV. -/
inductive Encodes : Byte → Bytes → Bytes → Prop
  | mk {tag : Byte} {len value : Bytes} : tag &&& 0x1f ≠ 0x1f → Length len value.length →
    Encodes tag value ([tag] ++ len ++ value)

/-- A list, of which each part has a flag: whether one of the flags is set. -/
inductive Many (P : Bytes → Bool → Prop) : Bytes → Bool → Prop
  | nil : Many P [] false
  | cons {b rest : Bytes} {flag flags : Bool} : P b flag → Many P rest flags → Many P (b ++ rest) (flag || flags)

/-! ## Signatures -/

/-- An INTEGER that is not negative, in at most 32 bytes and a leading zero. -/
inductive Uint : Bytes → BytesN 32 → Prop
  | mk {top : Byte} {rest b : Bytes} {v : BytesN 32} : top &&& 0x80 = 0 → rest.length ≤ 32 →
    beNat (top :: rest) = beNat v.1 → Encodes 0x02 (top :: rest) b → Uint b v

inductive SigValue : Bytes → BytesN 32 → BytesN 32 → Prop
  | mk {br bs more b after : Bytes} {r s : BytesN 32} : Uint br r → Uint bs s →
    Encodes 0x30 (br ++ (bs ++ more)) b → SigValue (b ++ after) r s

/-! ## Fields -/

inductive Time : Bytes → X509.Time → Prop
  | utc {digits b : Bytes} (h : X509.Digits 12 digits) : Encodes 0x17 (digits ++ [0x5a]) b → Time b (.utc digits h)
  | generalized {digits b : Bytes} (h : X509.Digits 14 digits) : Encodes 0x18 (digits ++ [0x5a]) b → Time b (.generalized digits h)

/-- The inside of a Validity. -/
inductive Validity : Bytes → X509.Time → X509.Time → Prop
  | mk {bnb bna more : Bytes} {nb na : X509.Time} : Time bnb nb → Time bna na → Validity (bnb ++ (bna ++ more)) nb na

/-- The inside of the AlgorithmIdentifier of a key. -/
inductive KeyAlgorithm : Bytes → Prop
  | mk {balg bcurve more : Bytes} : Encodes 0x06 ecPublicKey balg → Encodes 0x06 prime256v1 bcurve →
    KeyAlgorithm (balg ++ (bcurve ++ more))

/-- The inside of a SubjectPublicKeyInfo. -/
inductive PublicKey : Bytes → BytesN 32 → BytesN 32 → Prop
  | mk {tag : Byte} {alg balg bkey more : Bytes} {qx qy : BytesN 32} : KeyAlgorithm alg → Encodes tag alg balg →
    Encodes 0x03 ([0x00, 0x04] ++ qx.1 ++ qy.1) bkey → Ecdsa.OnCurve (beNat qx.1) (beNat qy.1) →
    PublicKey (balg ++ (bkey ++ more)) qx qy

inductive Version : Bytes → Prop
  | absent : Version []
  | present {value b : Bytes} : Encodes 0xa0 value b → Version b

/-! ## Extensions -/

/-- The inside of the OCTET STRING of a basicConstraints, with its `cA`: a BOOLEAN of one byte at the front of a
SEQUENCE. -/
inductive CaFlag : Bytes → Bool → Prop
  | boolean {v : Byte} {bca more b after : Bytes} : Encodes 0x01 [v] bca → Encodes 0x30 (bca ++ more) b →
    CaFlag (b ++ after) (v != 0)
  | otherField {tag : Byte} {value bfield more b after : Bytes} : Encodes tag value bfield →
    ¬ (tag = 0x01 ∧ value.length = 1) → Encodes 0x30 (bfield ++ more) b → CaFlag (b ++ after) false
  | noField {tag : Byte} {value b after : Bytes} : ¬ (tag = 0x30 ∧ value ≠ []) → Encodes tag value b → CaFlag (b ++ after) false

/-- A basicConstraints after its OID. -/
inductive BasicConstraints : Bytes → Bool → Prop
  | plain {value boctets more : Bytes} {ca : Bool} : CaFlag value ca → Encodes 0x04 value boctets →
    BasicConstraints (boctets ++ more) ca
  | critical {flag bflag value boctets more : Bytes} {ca : Bool} : Encodes 0x01 flag bflag → CaFlag value ca →
    Encodes 0x04 value boctets → BasicConstraints (bflag ++ (boctets ++ more)) ca

/-- An extension, and whether it is a basicConstraints with `cA` set. -/
inductive Extension : Bytes → Bool → Prop
  | basicConstraints {bid rest b : Bytes} {ca : Bool} : Encodes 0x06 idBasicConstraints bid → BasicConstraints rest ca →
    Encodes 0x30 (bid ++ rest) b → Extension b ca
  | other {tag : Byte} {id bid rest b : Bytes} : Encodes tag id bid → ¬ (tag = 0x06 ∧ id = idBasicConstraints) →
    Encodes 0x30 (bid ++ rest) b → Extension b false

/-- A field after the key: the extensions, or one that is skipped. -/
inductive OptionalField : Bytes → Bool → Prop
  | extensions {exts bexts after b : Bytes} {ca : Bool} : Many Extension exts ca → Encodes 0x30 exts bexts →
    Encodes 0xa3 (bexts ++ after) b → OptionalField b ca
  | skipped {tag : Byte} {value b : Bytes} : tag ≠ 0xa3 → Encodes tag value b → OptionalField b false

/-! ## Certificates -/

/-- What is read off a TBSCertificate. -/
structure TbsValues where
  issuer : Bytes
  subject : Bytes
  notBefore : Nat
  notAfter : Nat
  qx : BytesN 32
  qy : BytesN 32
  isCa : Bool

/-- The inside of a TBSCertificate. -/
inductive Tbs : Bytes → TbsValues → Prop
  | mk {bversion serial bserial alg balg iss bissuer validity bvalidity subj bsubject key bkey bopts : Bytes}
    {talg tissuer tvalidity tsubject tkey : Byte} {nb na : X509.Time} {qx qy : BytesN 32} {ca : Bool} :
    Version bversion → Encodes 0x02 serial bserial → Encodes talg alg balg → Encodes tissuer iss bissuer →
    Validity validity nb na → Encodes tvalidity validity bvalidity → Encodes tsubject subj bsubject →
    PublicKey key qx qy → Encodes tkey key bkey → Many OptionalField bopts ca →
    Tbs (bversion ++ (bserial ++ (balg ++ (bissuer ++ (bvalidity ++ (bsubject ++ (bkey ++ bopts)))))))
      ⟨bissuer, bsubject, nb.canonical, na.canonical, qx, qy, ca⟩

/-- What is read off a certificate: the bytes that are signed, what they say, and the signature. -/
structure Values where
  tbsDer : Bytes
  tbs : TbsValues
  sigR : BytesN 32
  sigS : BytesN 32

inductive Cert : Bytes → Values → Prop
  | mk {tbs btbs balgOid algRest balg sig bsig more b after : Bytes} {talg : Byte} {values : TbsValues} {r s : BytesN 32} :
    Tbs tbs values → Encodes 0x30 tbs btbs → Encodes 0x06 ecdsaWithSha256 balgOid → Encodes talg (balgOid ++ algRest) balg →
    SigValue sig r s → Encodes 0x03 ([0x00] ++ sig) bsig → Encodes 0x30 (btbs ++ (balg ++ (bsig ++ more))) b →
    Cert (b ++ after) ⟨btbs, values, r, s⟩

end ND.Spec.CertGrammar
