import NanoDtls.Impl.Hello
import NanoDtls.Impl.Messages
import NanoDtls.Impl.Record
import NanoDtls.Impl.Udp
import NanoDtls.Spec.Ecdsa
import NanoDtls.Spec.KeySchedule
import NanoDtls.Spec.Wire
import NanoDtls.Spec.X25519
import Mathlib.Data.Nat.Count

/-!
# When a client accepts

What has to be true of the datagrams a client receives for its handshake to
succeed, as one list of conditions on byte strings: there is no state of the
client here, and each transcript hash is the hash of the messages written
out. The parsers of the messages are those of the implementation.
-/

namespace ND.Spec.Client

open ND.Impl Handshake Hello Messages Record Sha256 Udp X509
open KeySchedule X25519

/-- The `k`-th receive, into a buffer of 4096 bytes. -/
def received (env : Env) (k : Nat) : Option Bytes := (env.recvs k).map (·.take 4096)

/-- The number of receives before attempt `i` to send the ClientHello: a receive follows a send that
succeeds. -/
def receivesBefore (env : Env) (i : Nat) : Nat := Nat.count (fun j => env.sends j = true) i

/-- A datagram that is an unencrypted record of type handshake with a Handshake header. -/
def IsReply (datagram record : Bytes) : Prop :=
  ∃ phdr hdr, plaintextParse datagram = .ok (phdr, record) ∧ phdr.type = 22 ∧
    ∃ fragment, handshakeParse record = .ok (hdr, fragment)

/-- The first reply to the ClientHello comes after attempt `i`, of 5. -/
structure FirstReply (env : Env) (i : Nat) (record : Bytes) : Prop where
  bound : i < 5
  sent : env.sends i = true
  reply : ∃ d, received env (receivesBefore env i) = some d ∧ IsReply d record
  first : ∀ j < i, env.sends j = true → ∀ d, received env (receivesBefore env j) = some d → ∀ r, ¬ IsReply d r

/-- An unfragmented handshake message: its type, its bytes and the view of its body. -/
def Unfragmented (msgType : Byte) (message : Bytes) (body : Span) : Prop :=
  ∃ hdr, handshakeParse message = .ok (hdr, body) ∧
    hdr.msgType = msgType ∧ hdr.fragmentOffset = 0 ∧ hdr.fragmentLength = hdr.length

/-- The `k`-th receive is a protected handshake record with this content. -/
def Opens (env : Env) (k : Nat) (u : RecordUnprotection) (content : Bytes) (u' : RecordUnprotection) : Prop :=
  ∃ d, received env k = some d ∧ recordUnprotect u d 4096 = .ok (content, 22, u')

/-- What the signature of a CertificateVerify signs, before it is hashed. -/
def signedContent (transcriptHash : BytesN 32) : Bytes :=
  List.replicate 64 0x20 ++ cString "TLS 1.3, server CertificateVerify" ++ [0] ++ transcriptHash.1

/-- The ClientHello. -/
def clientHelloMessage (random priv : BytesN 32) : Bytes :=
  Wire.handshake 1 0 (Wire.clientHello random.1 (publicKey priv).1)

/-- A run that a client with these random values, trust anchor and time accepts. The messages are the
whole contents of the records: a message enters the transcript with its header, as it was received. -/
structure Acceptance (env : Env) (random priv : BytesN 32) (trustAnchor : X509Cert) (atTime : Nat) where
  attempt : Nat
  sh : Bytes
  ee : Bytes
  cert : Bytes
  cv : Bytes
  fin : Bytes
  -- the reply is a ServerHello with our cipher suite and a share that gives a secret other than zero
  reply : FirstReply env attempt sh
  shBody : Span
  sh_message : Unfragmented 2 sh shBody
  hello : ServerHello
  sh_parse : serverHelloParse shBody.bytes = .ok hello
  suite : hello.cipherSuite = 0x1303
  shared_ne : x25519 priv hello.keyShare ≠ zeros 32
  keys : HandshakeKeys
  keys_eq : keys =
    handshakeKeys (x25519 priv hello.keyShare).1 (sha256 (clientHelloMessage random priv ++ sh)).1
  -- the next four datagrams are protected with the server's key, and each is the message of its turn
  u₁ : RecordUnprotection
  u₂ : RecordUnprotection
  u₃ : RecordUnprotection
  u₄ : RecordUnprotection
  ee_opens : Opens env (receivesBefore env attempt + 1)
    (recordUnprotectionInit keys.serverWriteKey keys.serverWriteIv 2) ee u₁
  cert_opens : Opens env (receivesBefore env attempt + 2) u₁ cert u₂
  cv_opens : Opens env (receivesBefore env attempt + 3) u₂ cv u₃
  fin_opens : Opens env (receivesBefore env attempt + 4) u₃ fin u₄
  eeBody : Span
  certBody : Span
  cvBody : Span
  finBody : Span
  ee_message : Unfragmented 8 ee eeBody
  cert_message : Unfragmented 11 cert certBody
  cv_message : Unfragmented 15 cv cvBody
  fin_message : Unfragmented 20 fin finBody
  ee_parse : encryptedExtensionsParse eeBody.bytes = .ok ()
  -- the certificates parse and lead to the trust anchor
  ders : List Span
  cert_parse : certificateParse certBody.bytes = .ok ders
  leaf : X509Cert
  issuers : List X509Cert
  chain_parse : List.Forall₂ (fun der c => ∃ parsed, x509Parse 64 der.bytes = .ok parsed ∧
    c = X509Cert.shift (certBody.off + der.off) parsed) ders (leaf :: issuers)
  chain_verify : x509VerifyChain (leaf :: issuers) trustAnchor atTime = .ok ()
  -- the signature is the leaf's, of the messages up to the Certificate
  cvMsg : CertificateVerifyMsg
  cv_parse : certificateVerifyParse cvBody.bytes = .ok cvMsg
  algorithm : cvMsg.algorithm = 0x0403
  r : BytesN 32
  s : BytesN 32
  signature_parse : Asn1.readEcdsaSigValue 64 cvMsg.signature = .ok (r, s)
  signature : Ecdsa.Verifies (beNat leaf.pubkeyQx.1) (beNat leaf.pubkeyQy.1)
    (beNat (sha256 (signedContent (sha256 (clientHelloMessage random priv ++ sh ++ ee ++ cert)))).1)
    (beNat r.1) (beNat s.1)
  -- the Finished is the MAC of the messages up to the CertificateVerify
  finished : finBody.bytes = (verifyData keys.serverHandshakeTrafficSecret.1
    (sha256 (clientHelloMessage random priv ++ sh ++ ee ++ cert ++ cv)).1).1

end ND.Spec.Client
