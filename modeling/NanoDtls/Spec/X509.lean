import NanoDtls.Spec.Ecdsa
import NanoDtls.Framework.Bytes
import Mathlib.Data.Nat.Log
import Mathlib.Data.Nat.Size

/-!
# Certificates and their DER encoding

TLVs with definite lengths in their shortest form, and the certificates of
the profile that the parser supports: P-256 keys, ECDSA signatures with
SHA-256, any names, and any extensions.
-/

namespace ND.Spec.X509

/-! ## DER -/

/-- The octets of a length. -/
def lengthOctets (n : Nat) : Bytes :=
  if n < 128 then [BitVec.ofNat 8 n]
  else BitVec.ofNat 8 (128 + (Nat.log 256 n + 1)) :: beBytes (Nat.log 256 n + 1) n

def tlv (tag : Byte) (value : Bytes) : Bytes := [tag] ++ lengthOctets value.length ++ value

def sequence (value : Bytes) : Bytes := tlv 0x30 value

def oid (value : Bytes) : Bytes := tlv 0x06 value

/-- A BIT STRING of whole bytes. -/
def bitString (value : Bytes) : Bytes := tlv 0x03 ([0x00] ++ value)

/-- An INTEGER that is not negative, in its shortest form: the top bit is clear. -/
def integer (n : Nat) : Bytes := tlv 0x02 (beBytes (n.size / 8 + 1) n)

/-- An ECDSA signature. -/
def ecdsaSigValue (r s : Nat) : Bytes := sequence (integer r ++ integer s)

def boolean (b : Bool) : Bytes := tlv 0x01 [if b then 0xff else 0x00]

/-- A TLV with any tag of one byte. -/
structure Element where
  tag : Byte
  value : Bytes
  low : tag &&& 0x1f ≠ 0x1f

def Element.encode (e : Element) : Bytes := tlv e.tag e.value

/-- An optional field. -/
def optional {α : Type} (encode : α → Bytes) : Option α → Bytes
  | none => []
  | some a => encode a

/-! ## Certificates -/

def ecdsaWithSha256 : Bytes := [0x2a, 0x86, 0x48, 0xce, 0x3d, 0x04, 0x03, 0x02]
def ecPublicKey : Bytes := [0x2a, 0x86, 0x48, 0xce, 0x3d, 0x02, 0x01]
def prime256v1 : Bytes := [0x2a, 0x86, 0x48, 0xce, 0x3d, 0x03, 0x01, 0x07]
def idBasicConstraints : Bytes := [0x55, 0x1d, 0x13]

/-- `n` decimal digits. -/
def Digits (n : Nat) (l : Bytes) : Prop := l.length = n ∧ ∀ b ∈ l, 0x30 ≤ b ∧ b ≤ 0x39

/-- A time: its digits, `YYMMDDHHMMSS` or `YYYYMMDDHHMMSS`. -/
inductive Time where
  | utc (digits : Bytes) (h : Digits 12 digits)
  | generalized (digits : Bytes) (h : Digits 14 digits)

/-- The number that decimal digits write. -/
def decimal (digits : Bytes) : Nat := digits.foldl (fun v b => 10 * v + (b.toNat - 0x30)) 0

/-- The time as the number `YYYYMMDDHHMMSS`; the two digits of a year stand for 1950 to 2049. -/
def Time.canonical : Time → Nat
  | .utc digits _ => (if decimal (digits.take 2) < 50 then 20 else 19) * 10 ^ 12 + decimal digits
  | .generalized digits _ => decimal digits

def Time.encode : Time → Bytes
  | .utc digits _ => tlv 0x17 (digits ++ [0x5a])
  | .generalized digits _ => tlv 0x18 (digits ++ [0x5a])

/-- An extension: basicConstraints with its optional fields, or another with any value. -/
inductive Extension where
  | basicConstraints (critical ca : Option Bool) (pathLen : Option Bytes)
  | other (id : Bytes) (h : id ≠ idBasicConstraints) (critical : Option Bool) (value : Bytes)

def Extension.encode : Extension → Bytes
  | .basicConstraints critical ca pathLen =>
    sequence (oid idBasicConstraints ++ (optional boolean critical ++
      tlv 0x04 (sequence (optional boolean ca ++ optional (tlv 0x02) pathLen))))
  | .other id _ critical value => sequence (oid id ++ (optional boolean critical ++ tlv 0x04 value))

/-- A basicConstraints that says it is the one of a CA. -/
def Extension.isCa : Extension → Bool
  | .basicConstraints _ ca _ => ca == some true
  | .other _ _ _ _ => false

/-- What is signed. The version, the serial number and the unique identifiers are the values of their
TLVs. -/
structure Tbs where
  version : Option Bytes
  serial : Bytes
  signature : Element
  issuer : Element
  notBefore : Time
  notAfter : Time
  subject : Element
  qx : BytesN 32
  qy : BytesN 32
  issuerUniqueId : Option Bytes
  subjectUniqueId : Option Bytes
  extensions : Option (List Extension)
  onCurve : beNat qx.1 < Ecdsa.p ∧ beNat qy.1 < Ecdsa.p ∧
    (beNat qy.1 : ZMod Ecdsa.p) ^ 2 = (beNat qx.1 : ZMod Ecdsa.p) ^ 3 - 3 * (beNat qx.1 : ZMod Ecdsa.p) + Ecdsa.b

namespace Tbs

def validity (t : Tbs) : Bytes := sequence (t.notBefore.encode ++ t.notAfter.encode)

def publicKey (t : Tbs) : Bytes :=
  sequence (sequence (oid ecPublicKey ++ oid prime256v1) ++ bitString ([0x04] ++ t.qx.1 ++ t.qy.1))

/-- The fields after the key. -/
def tail (t : Tbs) : Bytes :=
  optional (tlv 0x81) t.issuerUniqueId ++ (optional (tlv 0x82) t.subjectUniqueId ++
    optional (fun exts => tlv 0xa3 (sequence (exts.flatMap Extension.encode))) t.extensions)

def body (t : Tbs) : Bytes :=
  optional (tlv 0xa0) t.version ++ (tlv 0x02 t.serial ++ (t.signature.encode ++ (t.issuer.encode ++ (t.validity ++
    (t.subject.encode ++ (t.publicKey ++ t.tail))))))

def encode (t : Tbs) : Bytes := sequence t.body

/-- Some basicConstraints has `cA` set. -/
def isCa (t : Tbs) : Bool := (t.extensions.getD []).any Extension.isCa

end Tbs

/-- A certificate: what is signed, and the signature. -/
def certificate (t : Tbs) (r s : Nat) : Bytes :=
  sequence (t.encode ++ (sequence (oid ecdsaWithSha256) ++ bitString (ecdsaSigValue r s)))

end ND.Spec.X509
