import NanoDtls.Impl.Client

/-!
# The server handshake (`src/handshake/server.c`)

The mirror of the client, one definition for each flight. `wrap_and_add` and
the small checks that the source writes out in both files are those of
`NanoDtls.Impl.Client`.
-/

namespace ND.Impl.Server

open Asn1 Handshake Hello Messages Record Sha256 Udp
open Client (maxMsg plaintextHdr parsePlaintextHandshake expectMessage sharedSecret checkFinished randomBytes)
open X25519 (x25519Base)

/-- `nd_server_config`. -/
structure ServerConfig where
  certDer : List Bytes
  signFn : BytesN 32 → Result (BytesN 32 × BytesN 32)

/-- What the server keeps after the ServerHello. -/
structure Session where
  transcript : Transcript
  keys : HandshakeKeys
  serverWrite : RecordProtection
  clientRead : RecordUnprotection

/-- The ClientHello: the client's key and the transcript. -/
def onClientHello (datagram : Bytes) : Result (HelloParams × Transcript) := do
  let (hh, frag, record) ← parsePlaintextHandshake datagram
  expectMessage hh hsClientHello
  let t := transcriptAdd transcriptInit record
  let ch ← clientHelloParse frag
  return (ch, t)

/-- The ServerHello: its datagram and the transcript with it. -/
def serverHello (random priv : BytesN 32) (t : Transcript) : Result (Bytes × Transcript) := do
  let pub ← x25519Base priv
  let body ← serverHelloSerialize ⟨random, pub⟩ 512
  let (wrapped, t) ← wrapAndAdd t hsServerHello 0 body (512 + handshakeHdrLen)
  let datagram ← plaintextSerialize plaintextHdr wrapped maxMsg
  return (datagram, t)

/-- The keys, after the ServerHello has been sent. -/
def startSession (priv : BytesN 32) (ch : HelloParams) (t : Transcript) : Result Session := do
  let shared ← sharedSecret priv ch.x25519PublicKey
  let keys ← deriveHandshakeKeys hkdfLabelPreDtls13 shared (transcriptSnapshot t)
  return { transcript := t, keys := keys,
           serverWrite := recordProtectionInit keys.serverWriteKey keys.serverWriteIv 2,
           clientRead := recordUnprotectionInit keys.clientWriteKey keys.clientWriteIv 2 }

/-- `send_protected` up to the send: the record and the session after it. -/
def protectMessage (s : Session) (msgType : Byte) (messageSeq : Nat) (body : Bytes) : Result (Bytes × Session) := do
  let (wrapped, t) ← wrapAndAdd s.transcript msgType messageSeq body maxMsg
  let (record, w) ← recordProtect s.serverWrite ctHandshake wrapped maxMsg
  return (record, { s with transcript := t, serverWrite := w })

/-- `send_protected`. -/
def sendProtected (s : Session) (msgType : Byte) (messageSeq : Nat) (body : Bytes) : Io Session := do
  let (record, s) ← check (protectMessage s msgType messageSeq body)
  udpSend record
  return s

/-- The body of the CertificateVerify: the algorithm, and the signature with its length. -/
def certificateVerifyBody (config : ServerConfig) (certVerifyHash : BytesN 32) : Result Bytes := do
  let content ← certificateVerifyContent certVerifyContextServer certVerifyHash certVerifyContentMax
  let (r, s) ← config.signFn (sha256 content)
  let sigDer ← writeEcdsaSigValue r s 80
  return [0x04, 0x03] ++ beBytes 2 sigDer.length ++ sigDer

/-- A message whose body is serialized and then sent. -/
def sendMessage (s : Session) (msgType : Byte) (messageSeq : Nat) (body : Result Bytes) : Io Session := do
  let body ← check body
  sendProtected s msgType messageSeq body

/-- EncryptedExtensions. -/
def sendEncryptedExtensions (s : Session) : Io Session :=
  sendMessage s hsEncryptedExtensions 1 (encryptedExtensionsSerialize 2)

/-- Certificate. -/
def sendCertificate (config : ServerConfig) (s : Session) : Io Session :=
  sendMessage s hsCertificate 2 (certificateSerialize config.certDer maxMsg)

/-- CertificateVerify; `cert_verify_hash` is the snapshot before it. -/
def sendCertificateVerify (config : ServerConfig) (s : Session) : Io Session :=
  sendMessage s hsCertificateVerify 3 (certificateVerifyBody config (transcriptSnapshot s.transcript))

/-- The server's Finished; `server_finished_hash` is the snapshot before it. -/
def sendFinished (s : Session) : Io Session :=
  sendMessage s hsFinished 4 ((·.1) <$> finishedCompute hkdfLabelPreDtls13 s.keys.serverHandshakeTrafficSecret
    (transcriptSnapshot s.transcript))

/-- The wait for the client's Finished: skip what does not unprotect, up to 8 datagrams. -/
def finishedLoop (clientRead : RecordUnprotection) : Nat → Status → Io (Bytes × Byte)
  | 0, st => throw st
  | n + 1, _ => do
    let datagram ← udpRecv maxMsg
    match recordUnprotect clientRead datagram maxMsg with
    | .ok (content, contentType, _) => return (content, contentType)
    | .error .ub => throw .ub
    | .error st => finishedLoop clientRead n st

/-- The checks of the client's Finished: the body that is accepted. -/
def onFinished (s : Session) (content : Bytes) (contentType : Byte) : Result (BytesN 32) := do
  failIf (contentType ≠ ctHandshake) .unsupported
  let (hh, frag) ← handshakeParse content
  expectMessage hh hsFinished
  checkFinished s.keys.clientHandshakeTrafficSecret (transcriptSnapshot s.transcript) frag.bytes

/-- The ClientHello of the peer, and the reply to it. -/
def exchangeHellos (priv random : Option (BytesN 32)) : Io Session := do
  let datagram ← udpServerAcceptPeer maxMsg
  let (ch, t) ← check (onClientHello datagram)
  let priv ← check (randomBytes priv)
  let random ← check (randomBytes random)
  let (shDatagram, t) ← check (serverHello random priv t)
  udpSend shDatagram
  check (startSession priv ch t)

/-- `nd_server_handshake` up to its own Finished. -/
def serverFlight (config : ServerConfig) (priv random : Option (BytesN 32)) : Io Session := do
  check (failIf (config.certDer.length = 0 ∨ certificateMsgMaxCerts < config.certDer.length) .badArg)
  let s ← exchangeHellos priv random
  let s ← sendEncryptedExtensions s
  let s ← sendCertificate config s
  let s ← sendCertificateVerify config s
  sendFinished s

/-- Where a successful server handshake ends: the session with the messages up to the server's
Finished in its transcript, and the client's Finished body that was accepted. -/
structure ServerRun where
  session : Session
  clientVerifyData : BytesN 32

def serverRun (config : ServerConfig) (priv random : Option (BytesN 32)) : Io ServerRun := do
  let s ← serverFlight config priv random
  let (content, contentType) ← finishedLoop s.clientRead 8 .truncated
  let verifyData ← check (onFinished s content contentType)
  return ⟨s, verifyData⟩

/-- `nd_server_handshake`; the keys are its `nd_server_result`. -/
def serverHandshake (config : ServerConfig) (priv random : Option (BytesN 32)) : Io HandshakeKeys := do
  let r ← serverRun config priv random
  return r.session.keys

/-! ## The call with the memory it writes to -/

/-- The locals that the wait for the client's Finished writes to: the receive buffer, and those of
`nd_record_unprotect`. -/
structure FinishedMem where
  datagram : Bytes
  read : UnprotectMem

/-- The wait for the client's Finished. A datagram is received over the one before it. -/
def finishedLoopInto : Nat → Status → FinishedMem → Io FinishedMem
  | 0, st, _ => throw st
  | n + 1, _, m => do
    let received ← udpRecv maxMsg
    let m := { m with datagram := patch m.datagram 0 received }
    match recordUnprotectInto (m.datagram.take received.length) m.read with
    | (.ok (), read) => return { m with read := read }
    | (.error .ub, _) => throw .ub
    | (.error st, read) => finishedLoopInto n st { m with read := read }

/-- `nd_server_handshake` up to the copy to `out_result`. `plaintext` is not initialized. -/
def serverHandshakeMem (config : ServerConfig) (priv random : Option (BytesN 32)) (datagram plaintext : BytesN maxMsg) :
    Io HandshakeKeys := do
  let s ← serverFlight config priv random
  let m ← finishedLoopInto 8 .truncated ⟨datagram.1, ⟨s.clientRead, plaintext.1, 0, 0⟩⟩
  let _ ← check (onFinished s (m.read.plaintextOut.take m.read.plaintextLen) m.read.outContentType)
  return s.keys

/-- `nd_server_handshake`: the status, and `out_result` after the call. -/
def serverHandshakeInto (config : ServerConfig) (priv random : Option (BytesN 32)) (datagram plaintext : BytesN maxMsg)
    (outResult : HandshakeKeys) : Prog UdpOp UdpRes (Result Unit × HandshakeKeys) := do
  match ← ExceptT.run (serverHandshakeMem config priv random datagram plaintext) with
  | .ok keys => return (.ok (), keys)
  | .error st => return (.error st, outResult)

end ND.Impl.Server
