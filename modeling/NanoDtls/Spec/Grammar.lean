import NanoDtls.Spec.Wire

/-!
# The handshake messages as abstract syntax

The bodies of RFC 8446 and RFC 9147 with all their fields free, and their
encodings. A vector carries the proof that its length field can hold its
length, so every message has an encoding. The bounds that the RFCs put on the
lengths of some vectors (a session id of at most 32 bytes, a list that is not
empty) are left out. `ClientFrame`, `ServerFrame`, `CertificateFrame` are the
messages with their lists as bytes: an encoding of one need not be an encoding
of a message.
-/

namespace ND.Spec.Grammar

open Wire (vec)

/-! ## Vectors -/

/-- The content of a vector with a length field of `n` bytes. -/
abbrev Opaque (n : Nat) := { b : Bytes // b.length < 256 ^ n }

/-- 16-bit values, one after another. -/
def u16s (l : List (BitVec 16)) : Bytes := l.flatMap fun v => beBytes 2 v.toNat

/-- A type and a vector: an extension, or the share of a key in a group. -/
structure Tagged where
  tag : BitVec 16
  data : Opaque 2
deriving DecidableEq

def Tagged.encode (e : Tagged) : Bytes := beBytes 2 e.tag.toNat ++ vec 2 e.data.1

def encodeAll (l : List Tagged) : Bytes := l.flatMap Tagged.encode

/-- The data of the first entry of a type. -/
def first (t : BitVec 16) (l : List Tagged) : Option Bytes := (l.find? (·.tag = t)).map (·.data.1)

/-- The entries of an extensions block. -/
abbrev Extensions := { l : List Tagged // (encodeAll l).length < 256 ^ 2 }

def Extensions.bytes (l : Extensions) : Opaque 2 := ⟨encodeAll l.1, l.2⟩

/-- The key of a share of X25519. -/
def x25519 (e : Tagged) : Option (BytesN 32) :=
  if h : e.tag = 0x001D ∧ e.data.1.length = 32 then some ⟨e.data.1, h.2⟩ else none

/-- The key of the last share of X25519. -/
def lastX25519 (shares : List Tagged) : Option (BytesN 32) := (shares.filterMap x25519).getLast?

/-! ## ClientHello -/

structure ClientFrame where
  legacyVersion : BitVec 16
  random : BytesN 32
  sessionId : Opaque 1
  cookie : Opaque 1
  cipherSuites : Opaque 2
  compressionMethods : Opaque 1
  extensions : Opaque 2

def ClientFrame.encode (m : ClientFrame) : Bytes :=
  beBytes 2 m.legacyVersion.toNat ++ (m.random.1 ++ (vec 1 m.sessionId.1 ++ (vec 1 m.cookie.1 ++
    (vec 2 m.cipherSuites.1 ++ (vec 1 m.compressionMethods.1 ++ vec 2 m.extensions.1)))))

structure ClientHello where
  legacyVersion : BitVec 16
  random : BytesN 32
  sessionId : Opaque 1
  cookie : Opaque 1
  cipherSuites : { l : List (BitVec 16) // (u16s l).length < 256 ^ 2 }
  compressionMethods : Opaque 1
  extensions : Extensions

def ClientHello.frame (m : ClientHello) : ClientFrame where
  legacyVersion := m.legacyVersion
  random := m.random
  sessionId := m.sessionId
  cookie := m.cookie
  cipherSuites := ⟨u16s m.cipherSuites.1, m.cipherSuites.2⟩
  compressionMethods := m.compressionMethods
  extensions := m.extensions.bytes

def ClientHello.encode (m : ClientHello) : Bytes := m.frame.encode

/-- A supported_versions that has DTLS 1.3 in its list. -/
def OffersVersion (data : Bytes) : Prop :=
  ∃ versions, (u16s versions).length < 256 ∧ data = vec 1 (u16s versions) ∧ 0xfefc ∈ versions

/-- A key_share with a list of shares at its front, of which `key` is the last one of X25519. -/
def OffersShare (data : Bytes) (key : BytesN 32) : Prop :=
  ∃ shares rest, (encodeAll shares).length < 256 ^ 2 ∧ data = vec 2 (encodeAll shares) ++ rest ∧
    lastX25519 shares = some key

/-- What a server needs of a ClientHello. -/
structure ClientHello.Offers (m : ClientHello) (key : BytesN 32) : Prop where
  suite : 0x1303 ∈ m.cipherSuites.1
  version : ∃ data, first 43 m.extensions.1 = some data ∧ OffersVersion data
  share : ∃ data, first 51 m.extensions.1 = some data ∧ OffersShare data key

/-- The extensions that a server reads are whole: nothing follows the versions and the shares. -/
structure ClientHello.Whole (m : ClientHello) : Prop where
  versions : ∃ versions, (u16s versions).length < 256 ∧ first 43 m.extensions.1 = some (vec 1 (u16s versions))
  shares : ∃ shares, (encodeAll shares).length < 256 ^ 2 ∧ first 51 m.extensions.1 = some (vec 2 (encodeAll shares))

/-! ## ServerHello -/

structure ServerFrame where
  legacyVersion : BitVec 16
  random : BytesN 32
  sessionIdEcho : Opaque 1
  cipherSuite : BitVec 16
  compressionMethod : Byte
  extensions : Opaque 2

def ServerFrame.encode (m : ServerFrame) : Bytes :=
  beBytes 2 m.legacyVersion.toNat ++ (m.random.1 ++ (vec 1 m.sessionIdEcho.1 ++ (beBytes 2 m.cipherSuite.toNat ++
    (beBytes 1 m.compressionMethod.toNat ++ vec 2 m.extensions.1))))

structure ServerHello where
  legacyVersion : BitVec 16
  random : BytesN 32
  sessionIdEcho : Opaque 1
  cipherSuite : BitVec 16
  compressionMethod : Byte
  extensions : Extensions

def ServerHello.frame (m : ServerHello) : ServerFrame where
  legacyVersion := m.legacyVersion
  random := m.random
  sessionIdEcho := m.sessionIdEcho
  cipherSuite := m.cipherSuite
  compressionMethod := m.compressionMethod
  extensions := m.extensions.bytes

def ServerHello.encode (m : ServerHello) : Bytes := m.frame.encode

/-- A key_share with a share of X25519 at its front. -/
def SelectsShare (data : Bytes) (key : BytesN 32) : Prop :=
  ∃ entry rest, data = Tagged.encode entry ++ rest ∧ x25519 entry = some key

/-- What a client needs of a ServerHello. -/
structure ServerHello.Selects (m : ServerHello) (key : BytesN 32) : Prop where
  version : first 43 m.extensions.1 = some (beBytes 2 0xfefc)
  share : ∃ data, first 51 m.extensions.1 = some data ∧ SelectsShare data key

/-- The extensions that a client reads are whole: nothing follows the version and the share. -/
structure ServerHello.Whole (m : ServerHello) : Prop where
  version : ∃ v : BitVec 16, first 43 m.extensions.1 = some (beBytes 2 v.toNat)
  share : ∃ entry, first 51 m.extensions.1 = some (Tagged.encode entry)

/-! ## The protected messages -/

/-- An EncryptedExtensions. -/
def encryptedExtensions (l : Extensions) : Bytes := vec 2 l.bytes.1

structure EntryFrame where
  certData : Opaque 3
  extensions : Opaque 2

def EntryFrame.encode (e : EntryFrame) : Bytes := vec 3 e.certData.1 ++ vec 2 e.extensions.1

structure CertificateFrame where
  requestContext : Opaque 1
  certificateList : Opaque 3

def CertificateFrame.encode (m : CertificateFrame) : Bytes := vec 1 m.requestContext.1 ++ vec 3 m.certificateList.1

structure CertificateEntry where
  certData : Opaque 3
  extensions : Extensions

def CertificateEntry.encode (e : CertificateEntry) : Bytes := EntryFrame.encode ⟨e.certData, e.extensions.bytes⟩

structure Certificate where
  requestContext : Opaque 1
  entries : { l : List CertificateEntry // (l.flatMap CertificateEntry.encode).length < 256 ^ 3 }

def Certificate.encode (m : Certificate) : Bytes :=
  CertificateFrame.encode ⟨m.requestContext, ⟨m.entries.1.flatMap CertificateEntry.encode, m.entries.2⟩⟩

structure CertificateVerify where
  algorithm : BitVec 16
  signature : Opaque 2

def CertificateVerify.encode (m : CertificateVerify) : Bytes := beBytes 2 m.algorithm.toNat ++ vec 2 m.signature.1

end ND.Spec.Grammar
