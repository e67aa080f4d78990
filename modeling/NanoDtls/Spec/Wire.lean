import NanoDtls.Framework.Bytes

/-!
# The messages on the wire

The encodings of RFC 8446 and RFC 9147 of the messages that the two
handshakes send: what their serializers write and their parsers read back.
-/

namespace ND.Spec.Wire

/-- A vector with a length of `n` bytes. -/
def vec (n : Nat) (b : Bytes) : Bytes := beBytes n b.length ++ b

theorem length_vec (n : Nat) (b : Bytes) : (vec n b).length = n + b.length := by simp [vec]

/-- An extension of a hello. -/
def extension (e : Nat × Bytes) : Bytes := beBytes 2 e.1 ++ vec 2 e.2

/-- A share of an X25519 key. -/
def keyShareEntry (key : Bytes) : Bytes := beBytes 2 0x001D ++ vec 2 key

def clientExtensions (key : Bytes) : List (Nat × Bytes) :=
  [(43, vec 1 (beBytes 2 0xfefc)), (10, vec 2 (beBytes 2 0x001D)), (51, vec 2 (keyShareEntry key)),
   (13, vec 2 (beBytes 2 0x0403 ++ beBytes 2 0x0804 ++ beBytes 2 0x0807))]

/-- The body of a ClientHello: version, random, session id, cookie, suites, compression, extensions. -/
def clientHello (random key : Bytes) : Bytes :=
  beBytes 2 0xfefd ++ random ++ vec 1 [] ++ vec 1 [] ++ vec 2 (beBytes 2 0x1303) ++ vec 1 (beBytes 1 0) ++
    vec 2 ((clientExtensions key).flatMap extension)

def serverExtensions (key : Bytes) : List (Nat × Bytes) := [(43, beBytes 2 0xfefc), (51, keyShareEntry key)]

/-- The body of a ServerHello. -/
def serverHello (random key : Bytes) : Bytes :=
  beBytes 2 0xfefd ++ random ++ vec 1 [] ++ beBytes 2 0x1303 ++ beBytes 1 0 ++
    vec 2 ((serverExtensions key).flatMap extension)

/-- An unfragmented handshake message. -/
def handshake (msgType : Byte) (messageSeq : Nat) (body : Bytes) : Bytes :=
  [msgType] ++ beBytes 3 body.length ++ beBytes 2 messageSeq ++ beBytes 3 0 ++ beBytes 3 body.length ++ body

/-- A handshake message in an unencrypted record of epoch 0 and sequence number 0. -/
def plaintextRecord (message : Bytes) : Bytes :=
  [22] ++ beBytes 2 0xfefd ++ beBytes 2 0 ++ beBytes 6 0 ++ vec 2 message

/-- An entry of a Certificate message, without extensions. -/
def certificateEntry (der : Bytes) : Bytes := vec 3 der ++ vec 2 []

/-- The body of a Certificate message. -/
def certificate (certs : List Bytes) : Bytes := vec 1 [] ++ vec 3 (certs.flatMap certificateEntry)

/-- The body of a CertificateVerify. -/
def certificateVerify (signature : Bytes) : Bytes := beBytes 2 0x0403 ++ vec 2 signature

end ND.Spec.Wire
