import NanoDtls.Impl.Os
import NanoDtls.Impl.Server
import NanoDtls.Impl.Sign

/-!
# The handshakes as processes

`nd_client_handshake`, `nd_server_handshake` and `nd_demo_p256_ecdsa_sign` down
to the calls of the operating system, in the order of the source. Here
`nd_random_bytes` is called, whose results are arguments in
`NanoDtls.Impl.Client`, `NanoDtls.Impl.Server` and `NanoDtls.Impl.Sign`, and the
memory that a certificate or the key is in is read, just before the function
that reads it. What is computed between the calls is what it is there.
-/

namespace ND.Impl.Process

open Client (maxMsg randomBytes expectMessage openHandshake overwrite leafOf clientFinished ClientFlight ClientResult)
open Handshake Hello Messages Os Record Sha256 X509
open Udp (Io udpRecv udpSend udpServerAcceptPeer)
open Server (onClientHello serverHello startSession onFinished finishedLoop ServerRun)

variable {α : Type}

/-- A function that calls the system and may fail. -/
abbrev Sys (α : Type) := Action OsOp OsRes Status α

def check (x : Result α) : Sys α := Action.check x

/-- Calls of a handshake, on the socket `fd`. -/
def net (fd : Nat) (timeoutMs : Int) (x : Io α) : Sys α := ExceptT.mk (onSocket fd timeoutMs (ExceptT.run x))

/-- A read from the block of memory with this address and size. -/
def load (block : Nat × Nat) : Sys Unit := Action.call (OsOp.load block.1 block.2)

/-- `nd_random_bytes`, as its callers use it. -/
def draw : Sys (BytesN 32) := do
  let r ← ExceptT.lift ndRandomBytes
  check (randomBytes r)

/-! ## The client -/

/-- Certificate. The trust anchor was parsed from the block `root`, and `trust_anchor->subject_der` points into it. -/
def recvCertificate (fd : Nat) (timeoutMs : Int) (root : Nat × Nat) (s : Client.Session) (trustAnchor : X509Cert) (atTime : Nat) :
    Sys (X509Cert × Client.Session) := do
  let datagram ← net fd timeoutMs (udpRecv maxMsg)
  let (content, hh, frag, u) ← check (openHandshake s.serverRead datagram)
  check (expectMessage hh hsCertificate)
  let certs ← check (certificateParse frag.bytes)
  let chain ← check (certs.mapM fun der => X509Cert.shift (frag.off + der.off) <$> x509Parse 64 der.bytes)
  load root
  check (x509VerifyChain chain trustAnchor atTime)
  let leaf ← check (leafOf chain)
  return (leaf, { s with serverRead := u, plaintext := overwrite content s.plaintext,
                         transcript := transcriptAdd s.transcript content })

/-- `nd_client_handshake` between its random bytes and its last send. -/
def clientFlight (fd : Nat) (timeoutMs : Int) (root : Nat × Nat) (random priv : BytesN 32) (trustAnchor : X509Cert) (atTime : Nat) :
    Sys ClientFlight := do
  let s ← net fd timeoutMs (Client.exchangeHellos random priv)
  let (_, s) ← net fd timeoutMs (Client.recvEncryptedExtensions s)
  let (leaf, s) ← recvCertificate fd timeoutMs root s trustAnchor atTime
  let (_, s) ← net fd timeoutMs (Client.recvCertificateVerify s leaf)
  let (_, s) ← net fd timeoutMs (Client.recvFinished s)
  let (verifyData, record) ← check (clientFinished s)
  return ⟨s, leaf, verifyData, record⟩

/-- `nd_client_handshake`. -/
def clientHandshake (fd : Nat) (timeoutMs : Int) (root : Nat × Nat) (trustAnchor : X509Cert) (atTime : Nat) : Sys ClientResult := do
  let random ← draw
  let priv ← draw
  let f ← clientFlight fd timeoutMs root random priv trustAnchor atTime
  net fd timeoutMs (udpSend f.record)
  return ⟨f.session.keys, f.leaf, f.session.plaintext⟩

/-! ## The server -/

/-- `nd_server_config`: the certificates with the blocks that they are in, and the signer with its context. -/
structure ServerConfig where
  certDer : List (Nat × Bytes)
  signFn : BytesN 32 → Sys (BytesN 32 × BytesN 32)

/-- The ClientHello of the peer, and the reply to it. -/
def exchangeHellos (fd : Nat) (timeoutMs : Int) : Sys Server.Session := do
  let datagram ← net fd timeoutMs (udpServerAcceptPeer maxMsg)
  let (ch, t) ← check (onClientHello datagram)
  let priv ← draw
  let random ← draw
  let (shDatagram, t) ← check (serverHello random priv t)
  net fd timeoutMs (udpSend shDatagram)
  check (startSession priv ch t)

/-- Reads of all certificates. -/
def loadAll : List (Nat × Bytes) → Sys Unit
  | [] => pure ()
  | c :: certs => do
    load (c.1, c.2.length)
    loadAll certs

/-- Certificate. -/
def sendCertificate (fd : Nat) (timeoutMs : Int) (config : ServerConfig) (s : Server.Session) : Sys Server.Session := do
  loadAll config.certDer
  net fd timeoutMs (Server.sendMessage s hsCertificate 2 (certificateSerialize (config.certDer.map (·.2)) maxMsg))

/-- CertificateVerify; `cert_verify_hash` is the snapshot before it. -/
def sendCertificateVerify (fd : Nat) (timeoutMs : Int) (config : ServerConfig) (s : Server.Session) : Sys Server.Session := do
  let content ← check (certificateVerifyContent certVerifyContextServer (transcriptSnapshot s.transcript) certVerifyContentMax)
  let (sigR, sigS) ← config.signFn (sha256 content)
  let sigDer ← check (Asn1.writeEcdsaSigValue sigR sigS 80)
  net fd timeoutMs (Server.sendProtected s hsCertificateVerify 3 ([0x04, 0x03] ++ beBytes 2 sigDer.length ++ sigDer))

/-- `nd_server_handshake` up to its own Finished. -/
def serverFlight (fd : Nat) (timeoutMs : Int) (config : ServerConfig) : Sys Server.Session := do
  check (failIf (config.certDer.length = 0 ∨ certificateMsgMaxCerts < config.certDer.length) .badArg)
  let s ← exchangeHellos fd timeoutMs
  let s ← net fd timeoutMs (Server.sendEncryptedExtensions s)
  let s ← sendCertificate fd timeoutMs config s
  let s ← sendCertificateVerify fd timeoutMs config s
  net fd timeoutMs (Server.sendFinished s)

def serverRun (fd : Nat) (timeoutMs : Int) (config : ServerConfig) : Sys ServerRun := do
  let s ← serverFlight fd timeoutMs config
  let (content, contentType) ← net fd timeoutMs (finishedLoop s.clientRead 8 .truncated)
  let verifyData ← check (onFinished s content contentType)
  return ⟨s, verifyData⟩

/-- `nd_server_handshake`. -/
def serverHandshake (fd : Nat) (timeoutMs : Int) (config : ServerConfig) : Sys HandshakeKeys := do
  let r ← serverRun fd timeoutMs config
  return r.session.keys

/-! ## The signer -/

/-- The loop over `attempt`. -/
def signLoop (d e : P256.Bn256) : Nat → Sys (BytesN 32 × BytesN 32)
  | 0 => throw .badArg
  | left + 1 => do
    let kBytes ← draw
    match ← check (Sign.signAttempt d e (P256.bnFromBytesBe kBytes)) with
    | some (r, s) => return (P256.bnToBytesBe r, P256.bnToBytesBe s)
    | none => signLoop d e left

/-- `nd_demo_p256_ecdsa_sign`, with the private key in the block `key`. -/
def demoP256EcdsaSign (key : Nat × Nat) (privkeyD hash : BytesN 32) : Sys (BytesN 32 × BytesN 32) := do
  load key
  let e ← check (P256.modReduceOnce (P256.bnFromBytesBe hash) P256.P256_N)
  signLoop (P256.bnFromBytesBe privkeyD) e 64

end ND.Impl.Process
