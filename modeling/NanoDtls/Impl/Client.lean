import NanoDtls.Impl.Hello
import NanoDtls.Impl.Messages
import NanoDtls.Impl.Record
import NanoDtls.Impl.Udp
import NanoDtls.Impl.X25519

/-!
# The client handshake (`src/handshake/client.c`)

One definition for each flight of `nd_client_handshake`, in the order of the
source. The scratch buffer `plaintext` is part of the state: each record that
is unprotected overwrites the front of it, and the views of the parsed
certificates point into it. The results of `nd_random_bytes` are arguments.
-/

namespace ND.Impl.Client

open Handshake Hello Messages Record Sha256 Udp X509
open X25519 (x25519Base x25519Scalarmult)

/-- `ND_MAX_MSG`. -/
def maxMsg : Nat := 4096

/-- `ND_CLIENT_HELLO_MAX_ATTEMPTS`. -/
def clientHelloMaxAttempts : Nat := 5

/-- `nd_random_bytes`, as its callers use it. -/
def randomBytes (r : Option (BytesN 32)) : Result (BytesN 32) :=
  match r with
  | none => .error .badArg
  | some b => .ok b

/-- The header of the unencrypted records: epoch 0, sequence number 0. -/
def plaintextHdr : PlaintextHdr :=
  { type := ctHandshake, legacyVersion := versionDtls12, epoch := 0, sequenceNumber := 0, length := 0 }

/-- The ClientHello: its datagram and the transcript with it. -/
def clientHello (random priv : BytesN 32) : Result (Bytes × Transcript) := do
  let pub ← x25519Base priv
  let body ← clientHelloSerialize ⟨random, pub⟩ 512
  let (wrapped, t) ← wrapAndAdd transcriptInit hsClientHello 0 body (512 + handshakeHdrLen)
  let datagram ← plaintextSerialize plaintextHdr wrapped maxMsg
  return (datagram, t)

/-- An unencrypted handshake record in a datagram: the header, the fragment and the whole record. -/
def parsePlaintextHandshake (datagram : Bytes) : Result (HandshakeHdr × Bytes × Bytes) := do
  let (phdr, record) ← plaintextParse datagram
  failIf (phdr.type ≠ ctHandshake) .unsupported
  let (hdr, fragment) ← handshakeParse record
  return (hdr, fragment.bytes, record)

/-- `recv_plaintext_handshake`. -/
def recvPlaintextHandshake : Io (HandshakeHdr × Bytes × Bytes) := do
  let datagram ← udpRecv maxMsg
  check (parsePlaintextHandshake datagram)

/-- The loop that sends the ClientHello until there is a reply. -/
def helloLoop (chDatagram : Bytes) : Nat → Status → Io (HandshakeHdr × Bytes × Bytes)
  | 0, st => throw st
  | n + 1, _ => do
    match ← attempt (udpSend chDatagram) with
    | .error st => helloLoop chDatagram n st
    | .ok () =>
      match ← attempt recvPlaintextHandshake with
      | .error st => helloLoop chDatagram n st
      | .ok reply => return reply

/-- `hh.msg_type != t`, then `hh.fragment_offset != 0 || hh.fragment_length != hh.length`. -/
def expectMessage (hh : HandshakeHdr) (msgType : Byte) : Result Unit := do
  failIf (hh.msgType ≠ msgType) .unsupported
  failIf (hh.fragmentOffset ≠ 0 ∨ hh.fragmentLength ≠ hh.length) .unsupported

/-- The shared secret, rejected if it is all zero. -/
def sharedSecret (priv peer : BytesN 32) : Result (BytesN 32) := do
  let shared ← x25519Scalarmult priv peer
  failIf (shared.1.all (· == 0)) .authFailed
  return shared

/-- What the client keeps after the ServerHello. -/
structure Session where
  transcript : Transcript
  keys : HandshakeKeys
  serverRead : RecordUnprotection
  clientWrite : RecordProtection
  plaintext : Bytes

/-- The checks of the ServerHello and the keys. -/
def onServerHello (priv : BytesN 32) (t : Transcript) (reply : HandshakeHdr × Bytes × Bytes) :
    Result Session := do
  let (hh, frag, record) := reply
  expectMessage hh hsServerHello
  let t := transcriptAdd t record
  let sh ← serverHelloParse frag
  failIf (sh.cipherSuite ≠ cipherSuite) .unsupported
  let shared ← sharedSecret priv sh.keyShare
  let keys ← deriveHandshakeKeys hkdfLabelPreDtls13 shared (transcriptSnapshot t)
  return { transcript := t, keys := keys,
           serverRead := recordUnprotectionInit keys.serverWriteKey keys.serverWriteIv 2,
           clientWrite := recordProtectionInit keys.clientWriteKey keys.clientWriteIv 2, plaintext := [] }

/-- The ClientHello, and the reply to it. -/
def exchangeHellos (random priv : BytesN 32) : Io Session := do
  let (chDatagram, t) ← check (clientHello random priv)
  let reply ← helloLoop chDatagram clientHelloMaxAttempts .truncated
  check (onServerHello priv t reply)

/-- A protected handshake record in a datagram: its content, the header, the fragment and the state
after it. -/
def openHandshake (u : RecordUnprotection) (datagram : Bytes) :
    Result (Bytes × HandshakeHdr × Span × RecordUnprotection) := do
  let (content, contentType, u) ← recordUnprotect u datagram maxMsg
  failIf (contentType ≠ ctHandshake) .unsupported
  let (hdr, fragment) ← handshakeParse content
  return (content, hdr, fragment, u)

/-- A content copied over the front of a buffer. -/
def overwrite (content buf : Bytes) : Bytes := content ++ buf.drop content.length

/-- One message of the server: `recv_protected_handshake`, the checks of the header, those of the body
(`accept`), and `nd_transcript_add` of the whole record. -/
def recvMessage {α : Type} (s : Session) (msgType : Byte) (accept : Span → Result α) : Io (α × Session) := do
  let datagram ← udpRecv maxMsg
  let (content, hh, frag, u) ← check (openHandshake s.serverRead datagram)
  check (expectMessage hh msgType)
  let a ← check (accept frag)
  return (a, { s with serverRead := u, plaintext := overwrite content s.plaintext,
                      transcript := transcriptAdd s.transcript content })

/-- EncryptedExtensions. -/
def recvEncryptedExtensions (s : Session) : Io (Unit × Session) :=
  recvMessage s hsEncryptedExtensions fun frag => encryptedExtensionsParse frag.bytes

/-- `chain[0]`. -/
def leafOf (chain : List X509Cert) : Result X509Cert :=
  match chain with
  | [] => .error .ub
  | leaf :: _ => .ok leaf

/-- The certificates of a Certificate message, verified: the leaf, with its views into the buffer that
`frag` is a view into. -/
def checkCertificate (trustAnchor : X509Cert) (atTime : Nat) (frag : Span) : Result X509Cert := do
  let certs ← certificateParse frag.bytes
  let chain ← certs.mapM fun der => X509Cert.shift (frag.off + der.off) <$> x509Parse 64 der.bytes
  x509VerifyChain chain trustAnchor atTime
  leafOf chain

/-- Certificate. -/
def recvCertificate (s : Session) (trustAnchor : X509Cert) (atTime : Nat) : Io (X509Cert × Session) :=
  recvMessage s hsCertificate (checkCertificate trustAnchor atTime)

/-- The signature in a CertificateVerify, verified. -/
def checkCertificateVerify (certVerifyHash : BytesN 32) (leaf : X509Cert) (frag : Span) : Result Unit := do
  let cvMsg ← certificateVerifyParse frag.bytes
  certificateVerifyCheck cvMsg certVerifyContextServer certVerifyHash leaf.pubkeyQx leaf.pubkeyQy

/-- CertificateVerify; `cert_verify_hash` is the snapshot before it. -/
def recvCertificateVerify (s : Session) (leaf : X509Cert) : Io (Unit × Session) :=
  recvMessage s hsCertificateVerify (checkCertificateVerify (transcriptSnapshot s.transcript) leaf)

/-- The body of a Finished, checked. -/
def checkFinished (baseKey hash : BytesN 32) (frag : Bytes) : Result (BytesN 32) := do
  failIf (frag.length ≠ 32) .badLength
  let verifyData ← bytesN 32 frag
  finishedVerify hkdfLabelPreDtls13 baseKey hash verifyData
  return verifyData

/-- The server's Finished; `server_finished_hash` is the snapshot before it. -/
def recvFinished (s : Session) : Io (BytesN 32 × Session) :=
  recvMessage s hsFinished fun frag =>
    checkFinished s.keys.serverHandshakeTrafficSecret (transcriptSnapshot s.transcript) frag.bytes

/-- The client's Finished: its `verify_data` and the record that is sent. -/
def clientFinished (s : Session) : Result (BytesN 32 × Bytes) := do
  let clientFinishedHash := transcriptSnapshot s.transcript
  let verifyData ← finishedCompute hkdfLabelPreDtls13 s.keys.clientHandshakeTrafficSecret clientFinishedHash
  let (wrapped, _) ← wrapAndAdd s.transcript hsFinished 1 verifyData.1 (32 + handshakeHdrLen)
  let (record, _) ← recordProtect s.clientWrite ctHandshake wrapped maxMsg
  return (verifyData, record)

/-- Where the client is before it sends its Finished: the session with the messages up to the
server's Finished in its transcript, the leaf, and the Finished. -/
structure ClientFlight where
  session : Session
  leaf : X509Cert
  verifyData : BytesN 32
  record : Bytes

/-- `nd_client_handshake` up to its last send. -/
def clientFlight (random priv : Option (BytesN 32)) (trustAnchor : X509Cert) (atTime : Nat) : Io ClientFlight := do
  let random ← check (randomBytes random)
  let priv ← check (randomBytes priv)
  let s ← exchangeHellos random priv
  let (_, s) ← recvEncryptedExtensions s
  let (leaf, s) ← recvCertificate s trustAnchor atTime
  let (_, s) ← recvCertificateVerify s leaf
  let (_, s) ← recvFinished s
  let (verifyData, record) ← check (clientFinished s)
  return ⟨s, leaf, verifyData, record⟩

/-- `nd_client_result`, and the buffer that the views of `server_leaf` point into, as the function
leaves it. -/
structure ClientResult where
  keys : HandshakeKeys
  serverLeaf : X509Cert
  plaintext : Bytes

/-- `nd_client_handshake`. -/
def clientHandshake (random priv : Option (BytesN 32)) (trustAnchor : X509Cert) (atTime : Nat) : Io ClientResult := do
  let f ← clientFlight random priv trustAnchor atTime
  udpSend f.record
  return ⟨f.session.keys, f.leaf, f.session.plaintext⟩

end ND.Impl.Client
