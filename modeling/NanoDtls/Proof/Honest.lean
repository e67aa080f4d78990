import NanoDtls.Proof.Chain
import NanoDtls.Proof.Server
import NanoDtls.Proof.X509
import NanoDtls.Proof.X25519.Agreement
import NanoDtls.Spec.Network

/-!
# The honest run

The messages of a handshake between a client and a server that serves it,
and the traces of the two programs: what each sends, given that it receives
what the other has sent (`client_does`, `server_does`). The client may have
sent its ClientHello up to four times in vain, and the server may find up to
four stale copies of it before the Finished.
-/

namespace ND.Proof.Honest

open ND.Impl Handshake Hello Messages Record Sha256 Udp X509
open ND.Action (Does)
open Spec.KeySchedule Spec.Client Spec.Network Proof.Handshake Proof.Transcript Proof.Record

/-! ## Traces of the system calls -/

/-- The events of a trace. -/
def sent (d : Bytes) : Prog.Event UdpOp UdpRes := ⟨.send d, true⟩
def got (d : Bytes) : Prog.Event UdpOp UdpRes := ⟨.recv, some d⟩
def timedOut : Prog.Event UdpOp UdpRes := ⟨.recv, none⟩
def connected : Prog.Event UdpOp UdpRes := ⟨.connect, true⟩

theorem does_send (d : Bytes) : Does (send d) [sent d] true := @Action.does_call UdpOp UdpRes Status (.send d) true

theorem does_recv (d : Bytes) : Does recv [got d] (some d) := @Action.does_call UdpOp UdpRes Status .recv (some d)

theorem does_connect : Does connect [connected] true := @Action.does_call UdpOp UdpRes Status .connect true

theorem does_check {α : Type} {x : Result α} {a : α} (h : x = .ok a) : Does (check x) [] a := Action.does_check h

theorem does_udpSend (d : Bytes) : Does (udpSend d) [sent d] () := (does_send d).bind (does_check rfl)

theorem does_udpRecv {d : Bytes} {cap : Nat} (h : d.length ≤ cap) : Does (udpRecv cap) [got d] d := by
  have hrecv : Does (udpRecv cap) [got d] (d.take cap) := (does_recv d).bind (Action.does_pure _)
  rwa [List.take_of_length_le h] at hrecv

theorem does_udpServerAcceptPeer {d : Bytes} {cap : Nat} (h : d.length ≤ cap) :
    Does (udpServerAcceptPeer cap) [got d, connected] d :=
  (does_udpRecv h).bind (does_connect.bind ((does_check rfl).bind (Action.does_pure d)))

theorem yields_attempt {α : Type} {x : Io α} {t : List (Prog.Event UdpOp UdpRes)} {r : Result α}
    (h : Prog.Yields (ExceptT.run x) t r) (hr : Avoids Status.ub r) : Does (attempt x) t r := by
  have hret : Prog.Yields (Prog.ret (outcome r) : Prog UdpOp UdpRes _) [] (.ok r) := by
    rw [Proof.Client.outcome_eq hr]
    exact .ret _
  have hbind := Prog.Yields.bind (f := fun r : Result α => Prog.ret (outcome r)) h hret
  rwa [List.append_nil] at hbind

theorem yields_recv_timeout : Prog.Yields (ExceptT.run Client.recvPlaintextHandshake) [timedOut] (.error .truncated) :=
  .call (.ret _)

/-- The attempts to send the ClientHello that were in vain. -/
def retries (ch : Bytes) (j : Nat) : List (Prog.Event UdpOp UdpRes) := (List.replicate j [sent ch, timedOut]).flatten

theorem retries_succ (ch : Bytes) (j : Nat) : retries ch (j + 1) = sent ch :: timedOut :: retries ch j := rfl

/-- The loop with `j` timeouts, and then a reply. -/
theorem does_helloLoop {ch d : Bytes} {reply : HandshakeHdr × Bytes × Bytes} (hd : d.length ≤ Client.maxMsg)
    (hparse : Client.parsePlaintextHandshake d = .ok reply) : ∀ (j n : Nat) (st : Status), j < n →
    Does (Client.helloLoop ch n st) (retries ch j ++ [sent ch, got d]) reply
  | 0, n + 1, st, _ => by
    have hrecv : Does Client.recvPlaintextHandshake [got d] reply := (does_udpRecv hd).bind (does_check hparse)
    exact (yields_attempt (does_udpSend ch) (avoids_ok _)).bind
      ((yields_attempt hrecv (avoids_ok _)).bind (Action.does_pure reply))
  | j + 1, n + 1, st, h => by
    rw [retries_succ]
    exact (yields_attempt (does_udpSend ch) (avoids_ok _)).bind
      ((yields_attempt yields_recv_timeout (avoids_error (by decide))).bind
        (does_helloLoop hd hparse j n .truncated (by omega)))

/-! ## The chain, wherever it lies in a buffer -/

/-- The same certificate, as views into another buffer. -/
def Moved (c c' : X509Cert) : Prop := ∃ k, c' = c.shift k

theorem headD_moved (trustAnchor : X509Cert) {chain chain' : List X509Cert} (h : List.Forall₂ Moved chain chain') :
    let issuer := chain.headD trustAnchor
    let issuer' := chain'.headD trustAnchor
    issuer'.subjectDer.bytes = issuer.subjectDer.bytes ∧ issuer'.isCa = issuer.isCa ∧
      issuer'.pubkeyQx = issuer.pubkeyQx ∧ issuer'.pubkeyQy = issuer.pubkeyQy := by
  cases h with
  | nil => exact ⟨rfl, rfl, rfl, rfl⟩
  | cons h _ =>
    obtain ⟨k, rfl⟩ := h
    exact ⟨rfl, rfl, rfl, rfl⟩

theorem verifyLinks_moved (trustAnchor : X509Cert) {chain chain' : List X509Cert} (h : List.Forall₂ Moved chain chain') :
    verifyLinks trustAnchor chain' = verifyLinks trustAnchor chain := by
  induction h with
  | nil => rfl
  | @cons c c' chain chain' hc hchain ih =>
    obtain ⟨k, rfl⟩ := hc
    obtain ⟨hsubject, hca, hqx, hqy⟩ := headD_moved trustAnchor hchain
    simp only [verifyLinks, derEq, hsubject, hca, hqx, hqy, ih]
    rfl

theorem any_outsideValidity_moved (atTime : Nat) {chain chain' : List X509Cert} (h : List.Forall₂ Moved chain chain') :
    chain'.any (outsideValidity · atTime) = chain.any (outsideValidity · atTime) := by
  induction h with
  | nil => rfl
  | cons hc _ ih =>
    obtain ⟨k, rfl⟩ := hc
    rw [List.any_cons, List.any_cons, ih]
    rfl

theorem x509VerifyChain_moved (trustAnchor : X509Cert) (atTime : Nat) {chain chain' : List X509Cert}
    (h : List.Forall₂ Moved chain chain') :
    x509VerifyChain chain' trustAnchor atTime = x509VerifyChain chain trustAnchor atTime := by
  simp only [x509VerifyChain, any_outsideValidity_moved atTime h, verifyLinks_moved trustAnchor h, h.length_eq]

/-- Certificates that parse, as views into a buffer. -/
theorem parse_spans (off : Nat) : ∀ {spans : List Span} {chain : List X509Cert},
    List.Forall₂ (fun der c => x509Parse 64 der = .ok c) (spans.map Span.bytes) chain →
    ∃ chain', List.Forall₂ Moved chain chain' ∧ List.Forall₂ (fun (der : Span) c => ∃ parsed,
      x509Parse 64 der.bytes = .ok parsed ∧ c = X509Cert.shift (off + der.off) parsed) spans chain'
  | [], [], _ => ⟨[], .nil, .nil⟩
  | span :: spans, c :: chain, .cons hc h => by
    obtain ⟨chain', hmoved, hparse⟩ := parse_spans off h
    exact ⟨c.shift (off + span.off) :: chain', .cons ⟨_, rfl⟩ hmoved, .cons ⟨c, hc, rfl⟩ hparse⟩

theorem serves_ne_nil {config : Server.ServerConfig} {leaf : X509Cert} {issuers : List X509Cert}
    {trustAnchor : X509Cert} {atTime : Nat} (h : Serves config leaf issuers trustAnchor atTime) : config.certDer ≠ [] := by
  intro h0
  have hparse := h.parse
  rw [h0] at hparse
  cases hparse

/-- The client accepts the Certificate message of a server that serves it. -/
theorem checkCertificate_serves {config : Server.ServerConfig} {leaf : X509Cert} {issuers : List X509Cert}
    {trustAnchor : X509Cert} {atTime : Nat} (h : Serves config leaf issuers trustAnchor atTime) (off : Nat) :
    Client.checkCertificate trustAnchor atTime ⟨off, Spec.Wire.certificate config.certDer⟩ = .ok (leaf.shift (off + 7)) := by
  obtain ⟨spans, hspans, hbytes, hhead⟩ :=
    Messages.certificateParse_eq (serves_ne_nil h) h.count (by have := h.fits; omega)
  have hparse := h.parse
  rw [← hbytes] at hparse
  cases spans with
  | nil => cases hparse
  | cons der spans =>
    rcases hparse with _ | ⟨hleaf, hissuers⟩
    obtain ⟨issuers', hmoved, hviews⟩ := parse_spans off hissuers
    rw [← hhead der rfl]
    have hfirst : Moved leaf (leaf.shift (off + der.off)) := ⟨off + der.off, rfl⟩
    have hverify := x509VerifyChain_moved trustAnchor atTime (.cons hfirst hmoved)
    exact Proof.Client.checkCertificate_eq_ok.mpr ⟨_, issuers', hspans, .cons ⟨leaf, hleaf, rfl⟩ hviews, hverify.trans h.verify⟩

/-! ## The messages -/

/-- The random values of both sides, the certificates, and the signature in the CertificateVerify. -/
structure Parties where
  random : BytesN 32
  priv : BytesN 32
  serverRandom : BytesN 32
  serverPriv : BytesN 32
  certDer : List Bytes
  r : BytesN 32
  s : BytesN 32

namespace Parties

variable (p : Parties)

def ch : Bytes := clientHelloMessage p.random p.priv

def sh : Bytes := Server.serverHelloMessage p.serverRandom p.serverPriv

def shared : BytesN 32 := Spec.X25519.x25519 p.priv (Spec.X25519.publicKey p.serverPriv)

/-- The transcript of the hellos. -/
def hellos : Transcript := transcriptAdd (transcriptAdd transcriptInit p.ch) p.sh

def keys : HandshakeKeys := handshakeKeys p.shared.1 (sha256 p.hellos.fed.flatten).1

def ee : Bytes := Spec.Wire.handshake 8 1 [0, 0]

def cert : Bytes := Spec.Wire.handshake 11 2 (Spec.Wire.certificate p.certDer)

/-- The transcript of the messages that the signature is of. -/
def signed : Transcript := transcriptAdd (transcriptAdd p.hellos ee) p.cert

def cv : Bytes := Spec.Wire.handshake 15 3 (Spec.Wire.certificateVerify (Asn1.signatureDer p.r p.s))

/-- The transcript of the messages that the server's Finished is of. -/
def maced : Transcript := transcriptAdd p.signed p.cv

def finData : BytesN 32 := verifyData p.keys.serverHandshakeTrafficSecret.1 (sha256 p.maced.fed.flatten).1

def fin : Bytes := Spec.Wire.handshake 20 4 p.finData.1

/-- The transcript of the messages that the client's Finished is of. -/
def all : Transcript := transcriptAdd p.maced p.fin

def clientFinData : BytesN 32 := verifyData p.keys.clientHandshakeTrafficSecret.1 (sha256 p.all.fed.flatten).1

def clientFin : Bytes := Spec.Wire.handshake 20 1 p.clientFinData.1

/-- The record of the `n`-th protected message of the server. -/
def serverRecord (n : Nat) (message : Bytes) : Bytes :=
  sealRecord ⟨p.keys.serverWriteKey, p.keys.serverWriteIv, n, 2⟩ 22 message

def clientRecord : Bytes := sealRecord ⟨p.keys.clientWriteKey, p.keys.clientWriteIv, 0, 2⟩ 22 p.clientFin

/-- The datagrams of the server. -/
def flight : List Bytes :=
  [Spec.Wire.plaintextRecord p.sh, p.serverRecord 0 ee, p.serverRecord 1 p.cert, p.serverRecord 2 p.cv,
   p.serverRecord 3 p.fin]

/-- The datagram of the ClientHello. -/
def chRecord : Bytes := Spec.Wire.plaintextRecord p.ch

end Parties

variable {p : Parties}

/-- What the client has of the server's sequence numbers before the `n`-th protected message. -/
def readState (p : Parties) (n : Nat) : RecordUnprotection := ⟨p.keys.serverWriteKey, p.keys.serverWriteIv, n - 1, 2⟩

theorem unprotect_serverRecord {n : Nat} {message : Bytes} (hn : n < 2 ^ 15) (hlen : message.length ≤ 2047) :
    recordUnprotect (readState p n) (p.serverRecord n message) Client.maxMsg = .ok (message, 22, readState p (n + 1)) := by
  have h := unprotect_sealRecord (p := ⟨p.keys.serverWriteKey, p.keys.serverWriteIv, n, 2⟩) (u := readState p n) rfl rfl rfl
    (show (22 : Byte) ≠ 0 by decide) hlen (show message.length ≤ Client.maxMsg by rw [Client.maxMsg]; omega)
    (show n < 2 ^ 48 by omega) (show n - 1 < 2 ^ 48 by omega)
    (show seqDist n (n - 1) < 2 ^ 15 by rw [seqDist_eq]; omega)
  rw [Parties.serverRecord, h]
  simp only [readState, Nat.add_sub_cancel, show max (n - 1) n = n by omega]

/-- The client receives a message of the server. -/
theorem does_recvMessage {α : Type} {s : Client.Session} {n messageSeq : Nat} {msgType : Byte} {body : Bytes}
    {accept : Span → Result α} {a : α} (hs : s.serverRead = readState p n) (hn : n < 2 ^ 15) (hseq : messageSeq < 256 ^ 2)
    (hlen : 12 + body.length + 1 ≤ 2048) (ha : accept ⟨12, body⟩ = .ok a) :
    Does (Client.recvMessage s msgType accept) [got (p.serverRecord n (Spec.Wire.handshake msgType messageSeq body))]
      (a, Proof.Client.afterMessage s (readState p (n + 1)) (Spec.Wire.handshake msgType messageSeq body)) := by
  have hmsg : (Spec.Wire.handshake msgType messageSeq body).length ≤ 2047 := by rw [length_handshake]; omega
  have hparse := handshakeParse_handshake msgType [] hseq (show body.length < 256 ^ 3 by omega)
  rw [List.append_nil] at hparse
  have hopen : Client.openHandshake s.serverRead (p.serverRecord n (Spec.Wire.handshake msgType messageSeq body)) =
      .ok (Spec.Wire.handshake msgType messageSeq body, header msgType messageSeq body.length, ⟨12, body⟩,
        readState p (n + 1)) :=
    Proof.Client.openHandshake_eq_ok.mpr ⟨hs ▸ unprotect_serverRecord hn hmsg, hparse⟩
  have hrec : (p.serverRecord n (Spec.Wire.handshake msgType messageSeq body)).length ≤ Client.maxMsg := by
    rw [Parties.serverRecord, length_sealRecord, Client.maxMsg]
    omega
  exact (does_udpRecv hrec).bind ((does_check hopen).bind ((does_check (expectMessage_header _ _ _)).bind
    ((does_check ha).bind (Action.does_pure _))))

/-! ## The client -/

/-- The client after the server's Finished. -/
def clientSession (p : Parties) : Client.Session :=
  let s := Proof.Client.sessionOf p.hellos p.shared
  Proof.Client.afterMessage (Proof.Client.afterMessage (Proof.Client.afterMessage (Proof.Client.afterMessage s
    (readState p 1) Parties.ee) (readState p 2) p.cert) (readState p 3) p.cv) (readState p 4) p.fin

theorem length_chRecord (p : Parties) : p.chRecord.length ≤ Client.maxMsg := by
  have hlen := Proof.Hello.length_clientHello p.random (Spec.X25519.publicKey p.priv)
  simp only [Parties.chRecord, Spec.Wire.plaintextRecord, Parties.ch, clientHelloMessage, List.length_append,
    Spec.Wire.length_vec, length_handshake, length_beBytes, List.length_singleton, hlen]
  decide

theorem length_shRecord (p : Parties) : (Spec.Wire.plaintextRecord p.sh).length ≤ Client.maxMsg := by
  have hlen := Proof.Hello.length_serverHello p.serverRandom (Spec.X25519.publicKey p.serverPriv)
  simp only [Spec.Wire.plaintextRecord, Parties.sh, Server.serverHelloMessage, List.length_append,
    Spec.Wire.length_vec, length_handshake, length_beBytes, List.length_singleton, hlen]
  decide

/-- The hellos, after `j` attempts in vain. -/
theorem does_exchangeHellos (hne : p.shared ≠ zeros 32) {j : Nat} (hj : j ≤ 4) :
    Does (Client.exchangeHellos p.random p.priv)
      (retries p.chRecord j ++ [sent p.chRecord, got (Spec.Wire.plaintextRecord p.sh)])
      (Proof.Client.sessionOf p.hellos p.shared) := by
  have hlen := Proof.Hello.length_serverHello p.serverRandom (Spec.X25519.publicKey p.serverPriv)
  have hparse := parsePlaintextHandshake_record 2 (show 0 < 256 ^ 2 by decide)
    (show (Spec.Wire.serverHello p.serverRandom.1 (Spec.X25519.publicKey p.serverPriv).1).length + 12 < 256 ^ 2 by
      rw [hlen]; decide)
  rw [hlen] at hparse
  have hsession : Client.onServerHello p.priv (transcriptAdd transcriptInit p.ch)
      (header 2 0 86, Spec.Wire.serverHello p.serverRandom.1 (Spec.X25519.publicKey p.serverPriv).1, p.sh) =
        .ok (Proof.Client.sessionOf p.hellos p.shared) :=
    Proof.Client.onServerHello_eq_ok.mpr ⟨⟨rfl, rfl, rfl⟩, _,
      Proof.Hello.serverHelloParse_eq p.serverRandom (Spec.X25519.publicKey p.serverPriv), rfl, hne, rfl⟩
  have hloop : Does (Client.helloLoop p.chRecord Client.clientHelloMaxAttempts .truncated) _ _ :=
    does_helloLoop (length_shRecord p) hparse j 5 .truncated (by omega)
  have hall : Does (Client.exchangeHellos p.random p.priv)
      ([] ++ ((retries p.chRecord j ++ [sent p.chRecord, got (Spec.Wire.plaintextRecord p.sh)]) ++ [])) _ :=
    (does_check (Proof.Client.clientHello_eq p.random p.priv)).bind (hloop.bind (does_check hsession))
  rwa [List.append_nil] at hall

/-- The signature of the parties is one of the leaf, over the messages up to the Certificate. -/
def Signed (p : Parties) (leaf : X509Cert) : Prop :=
  Spec.Ecdsa.Verifies (beNat leaf.pubkeyQx.1) (beNat leaf.pubkeyQy.1)
    (beNat (sha256 (signedContent (sha256 p.signed.fed.flatten))).1) (beNat p.r.1) (beNat p.s.1)

theorem length_certificateVerify (r s : BytesN 32) :
    (Spec.Wire.certificateVerify (Asn1.signatureDer r s)).length ≤ 76 := by
  have hsig := Asn1.length_signatureDer r s
  simp only [Spec.Wire.certificateVerify, List.length_append, length_beBytes, Spec.Wire.length_vec]
  omega

theorem checkCertificateVerify_honest {leaf : X509Cert} (off : Nat)
    (hsigned : Signed p leaf) (k : Nat) :
    Client.checkCertificateVerify (transcriptSnapshot p.signed) (leaf.shift k)
      ⟨off, Spec.Wire.certificateVerify (Asn1.signatureDer p.r p.s)⟩ = .ok () := by
  have hlen := Asn1.length_signatureDer p.r p.s
  obtain ⟨o, hcv⟩ := Messages.certificateVerifyParse_eq (show (Asn1.signatureDer p.r p.s).length < 256 ^ 2 by omega)
  rw [transcriptSnapshot_eq]
  exact Proof.Client.checkCertificateVerify_eq_ok.mpr ⟨_, p.r, p.s, hcv, rfl,
    Asn1.readEcdsaSigValue_write p.r p.s o, hsigned⟩

/-- The flight of the client: it ends with the keys of the hellos and its Finished. -/
theorem client_does {config : Server.ServerConfig} {leaf : X509Cert} {issuers : List X509Cert} {trustAnchor : X509Cert}
    {atTime : Nat} (hserves : Serves config leaf issuers trustAnchor atTime) (hconfig : p.certDer = config.certDer)
    (hne : p.shared ≠ zeros 32) (hsigned : Signed p leaf) :
    ∀ j ≤ 4, Does (Client.clientFlight (some p.random) (some p.priv) trustAnchor atTime)
      (retries p.chRecord j ++ sent p.chRecord :: p.flight.map got)
      ⟨clientSession p, leaf.shift 19, p.clientFinData, p.clientRecord⟩ := by
  have hfits := hserves.fits
  have hcert := checkCertificate_serves hserves 12
  rw [← hconfig] at hfits hcert
  have hcvlen := length_certificateVerify p.r p.s
  let s₀ := Proof.Client.sessionOf p.hellos p.shared
  let s₁ := Proof.Client.afterMessage s₀ (readState p 1) Parties.ee
  let s₂ := Proof.Client.afterMessage s₁ (readState p 2) p.cert
  let s₃ := Proof.Client.afterMessage s₂ (readState p 3) p.cv
  have hee : Does (Client.recvEncryptedExtensions s₀) [got (p.serverRecord 0 Parties.ee)] ((), s₁) :=
    does_recvMessage (p := p) (n := 0) rfl (by decide) (by decide) (by decide) rfl
  have hcert : Does (Client.recvCertificate s₁ trustAnchor atTime) [got (p.serverRecord 1 p.cert)] (leaf.shift 19, s₂) :=
    does_recvMessage (p := p) (n := 1) rfl (by decide) (by decide) hfits hcert
  have hcv : Does (Client.recvCertificateVerify s₂ (leaf.shift 19)) [got (p.serverRecord 2 p.cv)] ((), s₃) :=
    does_recvMessage (p := p) (n := 2) rfl (by decide) (by decide) (by omega)
      (checkCertificateVerify_honest 12 hsigned 19)
  have hdata : Client.checkFinished s₃.keys.serverHandshakeTrafficSecret (transcriptSnapshot s₃.transcript) p.finData.1 =
      .ok p.finData := by
    rw [transcriptSnapshot_eq]
    exact checkFinished_eq_ok.mpr ⟨rfl, rfl⟩
  have hfin : Does (Client.recvFinished s₃) [got (p.serverRecord 3 p.fin)] (p.finData, clientSession p) :=
    does_recvMessage (p := p) (n := 3) rfl (by decide) (by decide) (by rw [BytesN.length_eq]; decide) hdata
  have hlast : Client.clientFinished (clientSession p) = .ok (p.clientFinData, p.clientRecord) :=
    Proof.Client.clientFinished_eq _
  intro j hj
  have htrace : retries p.chRecord j ++ sent p.chRecord :: p.flight.map got =
      (retries p.chRecord j ++ [sent p.chRecord, got (Spec.Wire.plaintextRecord p.sh)]) ++
        [got (p.serverRecord 0 Parties.ee), got (p.serverRecord 1 p.cert), got (p.serverRecord 2 p.cv),
          got (p.serverRecord 3 p.fin)] := by
    rw [List.append_assoc]
    rfl
  rw [htrace]
  exact (does_check rfl).bind ((does_check rfl).bind ((does_exchangeHellos hne hj).bind (hee.bind (hcert.bind
    (hcv.bind (hfin.bind ((does_check hlast).bind (Action.does_pure _))))))))

/-! ## The server -/

/-- The server sends a message. -/
theorem does_sendMessage {s : Server.Session} {n messageSeq : Nat} {msgType : Byte} {body : Result Bytes} {b : Bytes}
    (hs : s.serverWrite = ⟨p.keys.serverWriteKey, p.keys.serverWriteIv, n, 2⟩) (hbody : body = .ok b)
    (hlen : 12 + b.length + 1 ≤ 2048) :
    Does (Server.sendMessage s msgType messageSeq body) [sent (p.serverRecord n (Spec.Wire.handshake msgType messageSeq b))]
      (Server.afterSend s (Spec.Wire.handshake msgType messageSeq b)) := by
  rw [Parties.serverRecord, ← hs]
  exact (does_check hbody).bind ((does_check (Server.protectMessage_eq_ok.mpr ⟨hlen, rfl, rfl⟩)).bind
    ((does_udpSend _).bind (Action.does_pure _)))

/-- The server after its Finished. -/
def serverSession (p : Parties) : Server.Session :=
  Server.afterSend (Server.afterSend (Server.afterSend (Server.afterSend (Server.sessionOf p.hellos p.shared)
    Parties.ee) p.cert) p.cv) p.fin

/-- The hellos: the server answers the ClientHello of the client. -/
theorem does_serverExchangeHellos (hne : p.shared ≠ zeros 32) :
    Does (Server.exchangeHellos (some p.serverPriv) (some p.serverRandom))
      [got p.chRecord, connected, sent (Spec.Wire.plaintextRecord p.sh)] (Server.sessionOf p.hellos p.shared) := by
  have hlen := Proof.Hello.length_clientHello p.random (Spec.X25519.publicKey p.priv)
  have hparse := parsePlaintextHandshake_record 1 (show 0 < 256 ^ 2 by decide)
    (show (Spec.Wire.clientHello p.random.1 (Spec.X25519.publicKey p.priv).1).length + 12 < 256 ^ 2 by
      rw [hlen]; decide)
  have hhello : Server.onClientHello p.chRecord =
      .ok (⟨p.random, Spec.X25519.publicKey p.priv⟩, transcriptAdd transcriptInit p.ch) :=
    Server.onClientHello_eq_ok.mpr ⟨_, _, _, hparse, ⟨rfl, rfl, rfl⟩, Proof.Hello.clientHelloParse_eq _ _, rfl⟩
  have hshared : p.shared = Spec.X25519.x25519 p.serverPriv (Spec.X25519.publicKey p.priv) :=
    X25519.x25519_publicKey_comm p.priv p.serverPriv
  have hsession : Server.startSession p.serverPriv ⟨p.random, Spec.X25519.publicKey p.priv⟩ p.hellos =
      .ok (Server.sessionOf p.hellos p.shared) := by
    rw [hshared] at hne ⊢
    exact Server.startSession_eq_ok.mpr ⟨hne, rfl⟩
  exact (does_udpServerAcceptPeer (length_chRecord p)).bind ((does_check hhello).bind ((does_check rfl).bind
    ((does_check rfl).bind ((does_check (Server.serverHello_eq p.serverRandom p.serverPriv _)).bind
      ((does_udpSend _).bind (does_check hsession))))))

/-- The signature of the server. -/
theorem certificateVerifyBody_eq {config : Server.ServerConfig} {hash r s : BytesN 32}
    (hsign : config.signFn (sha256 (signedContent hash)) = .ok (r, s)) :
    Server.certificateVerifyBody config hash = .ok (Spec.Wire.certificateVerify (Asn1.signatureDer r s)) := by
  rw [Server.certificateVerifyBody, Proof.Client.certificateVerifyContent_eq, ok_bind, hsign, ok_bind]
  simp only
  rw [Asn1.writeEcdsaSigValue_eq]
  rfl

/-- The flight of the server. -/
theorem does_serverFlight {config : Server.ServerConfig} (h0 : config.certDer ≠ []) (h4 : config.certDer.length ≤ 4)
    (hfits : 12 + (Spec.Wire.certificate p.certDer).length + 1 ≤ 2048) (hconfig : p.certDer = config.certDer)
    (hsign : config.signFn (sha256 (signedContent (sha256 p.signed.fed.flatten))) = .ok (p.r, p.s))
    (hne : p.shared ≠ zeros 32) :
    Does (Server.serverFlight config (some p.serverPriv) (some p.serverRandom))
      ([got p.chRecord, connected] ++ p.flight.map sent) (serverSession p) := by
  let s₀ := Server.sessionOf p.hellos p.shared
  let s₁ := Server.afterSend s₀ Parties.ee
  let s₂ := Server.afterSend s₁ p.cert
  let s₃ := Server.afterSend s₂ p.cv
  have hcvlen := length_certificateVerify p.r p.s
  have hcount : failIf (config.certDer.length = 0 ∨ certificateMsgMaxCerts < config.certDer.length) Status.badArg = .ok () := by
    rw [failIf_eq_ok, certificateMsgMaxCerts, List.length_eq_zero_iff, not_or]
    exact ⟨h0, by omega⟩
  have hserialize : certificateSerialize config.certDer Client.maxMsg = .ok (Spec.Wire.certificate p.certDer) := by
    rw [hconfig] at hfits ⊢
    exact Messages.certificateSerialize_eq h0 h4 (by decide) (by rw [Client.maxMsg]; omega)
  have hbody : Server.certificateVerifyBody config (transcriptSnapshot s₂.transcript) =
      .ok (Spec.Wire.certificateVerify (Asn1.signatureDer p.r p.s)) := by
    rw [transcriptSnapshot_eq]
    exact certificateVerifyBody_eq hsign
  have hdata : (·.1) <$> finishedCompute hkdfLabelPreDtls13 s₃.keys.serverHandshakeTrafficSecret
      (transcriptSnapshot s₃.transcript) = .ok p.finData.1 := by
    rw [transcriptSnapshot_eq, finishedCompute_eq]
    rfl
  have hee : Does (Server.sendEncryptedExtensions s₀) [sent (p.serverRecord 0 Parties.ee)] s₁ :=
    does_sendMessage rfl rfl (by decide)
  have hcert : Does (Server.sendCertificate config s₁) [sent (p.serverRecord 1 p.cert)] s₂ :=
    does_sendMessage rfl hserialize hfits
  have hcv : Does (Server.sendCertificateVerify config s₂) [sent (p.serverRecord 2 p.cv)] s₃ :=
    does_sendMessage rfl hbody (by omega)
  have hfin : Does (Server.sendFinished s₃) [sent (p.serverRecord 3 p.fin)] (serverSession p) :=
    does_sendMessage rfl hdata (by rw [BytesN.length_eq]; decide)
  exact (does_check hcount).bind ((does_serverExchangeHellos hne).bind (hee.bind (hcert.bind (hcv.bind hfin))))

/-- A copy of the ClientHello does not unprotect: it is no unified record. -/
theorem unprotect_chRecord (u : RecordUnprotection) : recordUnprotect u p.chRecord Client.maxMsg = .error .notUnified := by
  have hparse : unifiedParse p.chRecord 0 = .error .notUnified := rfl
  rw [recordUnprotect, hparse]
  rfl

/-- The wait for the Finished, with `j` stale copies before it. -/
theorem does_finishedLoop {u u' : RecordUnprotection} {d content : Bytes} {contentType : Byte}
    (hd : d.length ≤ Client.maxMsg) (hopen : recordUnprotect u d Client.maxMsg = .ok (content, contentType, u')) :
    ∀ (j n : Nat) (st : Status), j < n →
    Does (Server.finishedLoop u n st) (List.replicate j (got p.chRecord) ++ [got d]) (content, contentType)
  | 0, n + 1, st, _ => by
    unfold Server.finishedLoop
    refine (does_udpRecv hd).bind ?_
    rw [hopen]
    exact Action.does_pure _
  | j + 1, n + 1, st, h => by
    unfold Server.finishedLoop
    refine (does_udpRecv (length_chRecord p)).bind ?_
    rw [unprotect_chRecord]
    exact does_finishedLoop hd hopen j n .notUnified (by omega)

theorem length_clientFin (p : Parties) : p.clientFin.length = 44 := by
  rw [Parties.clientFin, length_handshake, BytesN.length_eq]

theorem length_clientRecord (p : Parties) : p.clientRecord.length ≤ Client.maxMsg := by
  rw [Parties.clientRecord, length_sealRecord, length_clientFin]
  decide

/-- The client's record opens with the keys of the server. -/
theorem unprotect_clientRecord (p : Parties) : recordUnprotect (serverSession p).clientRead p.clientRecord Client.maxMsg =
    .ok (p.clientFin, 22, (serverSession p).clientRead) := by
  have hfin := length_clientFin p
  exact unprotect_sealRecord rfl rfl rfl (by decide) (by rw [hfin]; decide) (by rw [hfin]; decide)
    (show 0 < 2 ^ 48 by decide) (show 0 < 2 ^ 48 by decide) (show seqDist 0 0 < 2 ^ 15 by decide)

/-- The server accepts the client's Finished. -/
theorem onFinished_honest (p : Parties) : Server.onFinished (serverSession p) p.clientFin 22 = .ok p.clientFinData := by
  have hlen := p.clientFinData.2
  have hparse := handshakeParse_handshake 20 [] (show 1 < 256 ^ 2 by decide)
    (show p.clientFinData.1.length < 256 ^ 3 by rw [hlen]; decide)
  rw [List.append_nil] at hparse
  have hdata : Client.checkFinished (serverSession p).keys.clientHandshakeTrafficSecret
      (transcriptSnapshot (serverSession p).transcript) p.clientFinData.1 = .ok p.clientFinData := by
    rw [transcriptSnapshot_eq]
    exact checkFinished_eq_ok.mpr ⟨rfl, rfl⟩
  rw [Server.onFinished, failIf_bind (by decide), Parties.clientFin, hparse, ok_bind]
  simp only
  rw [show hsFinished = 20 from rfl, expectMessage_header, ok_bind, hdata]

/-- The run of the server: it ends with the keys of the hellos and the Finished of the client. -/
theorem server_does {config : Server.ServerConfig} (h0 : config.certDer ≠ []) (h4 : config.certDer.length ≤ 4)
    (hfits : 12 + (Spec.Wire.certificate p.certDer).length + 1 ≤ 2048) (hconfig : p.certDer = config.certDer)
    (hsign : config.signFn (sha256 (signedContent (sha256 p.signed.fed.flatten))) = .ok (p.r, p.s))
    (hne : p.shared ≠ zeros 32) {j : Nat} (hj : j ≤ 4) :
    Does (Server.serverRun config (some p.serverPriv) (some p.serverRandom))
      (got p.chRecord :: connected :: (p.flight.map sent ++ (List.replicate j (got p.chRecord) ++ [got p.clientRecord])))
      ⟨serverSession p, p.clientFinData⟩ := by
  have hloop := does_finishedLoop (p := p) (length_clientRecord p) (unprotect_clientRecord p) j 8 .truncated (by omega)
  have hall : Does (Server.serverRun config (some p.serverPriv) (some p.serverRandom))
      (([got p.chRecord, connected] ++ p.flight.map sent) ++
        ((List.replicate j (got p.chRecord) ++ [got p.clientRecord]) ++ ([] ++ []))) ⟨serverSession p, p.clientFinData⟩ :=
    (does_serverFlight h0 h4 hfits hconfig hsign hne).bind (hloop.bind ((does_check (onFinished_honest p)).bind
      (Action.does_pure _)))
  rwa [List.append_nil, List.append_nil] at hall

/-! ## Both sides -/

/-- An environment that delivers these datagrams, where nothing fails. -/
def delivers (datagrams : List Bytes) : Env := ⟨fun _ => true, fun i => datagrams[i]?, true⟩

theorem exec_clientFlight {x : Io Client.ClientFlight} {a : Client.ClientFlight}
    (h : Does x (sent p.chRecord :: p.flight.map got) a) : exec (delivers p.flight) x = .ok a :=
  h.run_fst ⟨rfl, rfl, rfl, rfl, rfl, rfl, trivial⟩

theorem exec_serverRun {x : Io Server.ServerRun} {a : Server.ServerRun}
    (h : Does x (got p.chRecord :: connected :: (p.flight.map sent ++ [got p.clientRecord])) a) :
    exec (delivers [p.chRecord, p.clientRecord]) x = .ok a :=
  h.run_fst ⟨rfl, rfl, rfl, rfl, rfl, rfl, rfl, rfl, trivial⟩

/-- The run of a client and a server that serves it, with nothing lost. -/
theorem exec_honest {config : Server.ServerConfig} {leaf : X509Cert} {issuers : List X509Cert} {trustAnchor : X509Cert}
    {atTime : Nat} (hserves : Serves config leaf issuers trustAnchor atTime) (random priv serverRandom serverPriv : BytesN 32)
    (hne : Spec.X25519.x25519 priv (Spec.X25519.publicKey serverPriv) ≠ zeros 32) :
    ∃ (p : Parties) (hash : BytesN 32), p.certDer = config.certDer ∧ config.signFn hash = .ok (p.r, p.s) ∧
      exec (delivers p.flight) (Client.clientFlight (some random) (some priv) trustAnchor atTime) =
        .ok ⟨clientSession p, leaf.shift 19, p.clientFinData, p.clientRecord⟩ ∧
      exec (delivers [p.chRecord, p.clientRecord]) (Server.serverRun config (some serverPriv) (some serverRandom)) =
        .ok ⟨serverSession p, p.clientFinData⟩ := by
  let p₀ : Parties := ⟨random, priv, serverRandom, serverPriv, config.certDer, zeros 32, zeros 32⟩
  obtain ⟨r, s, hsign, hsigned⟩ := hserves.signs (sha256 (signedContent (sha256 p₀.signed.fed.flatten)))
  let p : Parties := { p₀ with r := r, s := s }
  have hclient := client_does (p := p) hserves rfl hne hsigned
  have hserver := server_does (p := p) (serves_ne_nil hserves) hserves.count hserves.fits rfl hsign hne (Nat.zero_le 4)
  exact ⟨p, _, rfl, hsign, exec_clientFlight (hclient 0 (Nat.zero_le 4)), exec_serverRun hserver⟩

/-! ## A server

The certificate of `X509.sampleTbs` below an anchor with the same key. -/

/-- A number below `2^256` as bytes. -/
def toBytes (v : Nat) : BytesN 32 := ⟨beBytes 32 v, by simp⟩

def sampleSign (hash : BytesN 32) : BytesN 32 × BytesN 32 :=
  (toBytes (P256.Signer.sign (beNat hash.1)).1, toBytes (P256.Signer.sign (beNat hash.1)).2)

/-- The signature of the leaf. -/
def sampleSignature : BytesN 32 × BytesN 32 := sampleSign (sha256 X509.sampleTbs.encode)

def sampleConfig : Server.ServerConfig where
  certDer := [Spec.X509.certificate X509.sampleTbs (beNat sampleSignature.1.1) (beNat sampleSignature.2.1)]
  signFn hash := .ok (sampleSign hash)

/-- The trust anchor: the fields that a chain is verified with. -/
def sampleAnchor : X509Cert where
  tbsDer := ⟨0, []⟩
  issuerDer := ⟨0, []⟩
  subjectDer := ⟨0, X509.sampleTbs.issuer.encode⟩
  notBefore := 20200101000000
  notAfter := 20991231235959
  pubkeyQx := X509.sampleTbs.qx
  pubkeyQy := X509.sampleTbs.qy
  isCa := true
  sigR := zeros 32
  sigS := zeros 32

theorem beNat_toBytes {v : Nat} (h : v < Spec.Ecdsa.n) : beNat (toBytes v).1 = v := by
  rw [toBytes, beNat_beBytes, Nat.mod_eq_of_lt (h.trans (by decide))]

theorem sampleSign_verifies (hash : BytesN 32) :
    Spec.Ecdsa.Verifies (beNat X509.sampleTbs.qx.1) (beNat X509.sampleTbs.qy.1) (beNat hash.1) (beNat (sampleSign hash).1.1)
      (beNat (sampleSign hash).2.1) := by
  have h := P256.Signer.sign_verifies (beNat hash.1)
  have hr : beNat (sampleSign hash).1.1 = (P256.Signer.sign (beNat hash.1)).1 := beNat_toBytes h.2.2.1.2
  have hs : beNat (sampleSign hash).2.1 = (P256.Signer.sign (beNat hash.1)).2 := beNat_toBytes h.2.2.2.1.2
  have hx : beNat X509.sampleTbs.qx.1 = Spec.Ecdsa.gx := by decide +kernel
  have hy : beNat X509.sampleTbs.qy.1 = P256.Signer.keyY := by decide +kernel
  rwa [hr, hs, hx, hy]

theorem length_sampleCertificate (r s : BytesN 32) :
    (Spec.X509.certificate X509.sampleTbs (beNat r.1) (beNat s.1)).length ≤ 404 := by
  have hlen := X509.length_outer_sample r s
  rw [Spec.X509.certificate, ← Asn1.signatureDer_eq, ← X509.outer, Spec.X509.sequence, Asn1.length_tlv,
    Asn1.headerLen_two hlen.1 (by omega)]
  omega

/-- The leaf that the client parses, wherever its names lie. -/
def sampleLeaf (i j : Nat) : X509Cert := X509.parsed X509.sampleTbs sampleSignature.1 sampleSignature.2 4 i j

theorem sampleLeaf_issued (i j : Nat) : Chain.IssuedBy (sampleLeaf i j) sampleAnchor :=
  ⟨rfl, rfl, (P256.ecdsaVerify_decides _ _ _ _ _).ok_iff.mpr (sampleSign_verifies (sha256 X509.sampleTbs.encode))⟩

theorem sample_serves : ∃ i j, Serves sampleConfig (sampleLeaf i j) [] sampleAnchor 20300101000000 := by
  have hlen := length_sampleCertificate sampleSignature.1 sampleSignature.2
  obtain ⟨hlow, hhigh⟩ := X509.length_outer_sample sampleSignature.1 sampleSignature.2
  obtain ⟨i, j, hparse⟩ := X509.x509Parse_certificate X509.sampleTbs sampleSignature.1 sampleSignature.2 (by omega)
  rw [Asn1.headerLen_two hlow (by omega)] at hparse
  refine ⟨i, j, .cons hparse .nil, ?_, by decide, ?_, ?_⟩
  · have hleaf : X509.sampleTbs.notBefore.canonical ≤ 20300101000000 ∧ 20300101000000 ≤ X509.sampleTbs.notAfter.canonical := by
      decide
    refine (Chain.x509VerifyChain_eq_ok (List.cons_ne_nil _ _)).mpr ⟨?_, List.isChain_pair.mpr (sampleLeaf_issued i j)⟩
    rw [List.forall_mem_append, List.forall_mem_singleton, List.forall_mem_singleton]
    exact ⟨hleaf, by decide, by decide⟩
  · rw [sampleConfig, Messages.length_certificate, List.map_singleton, List.sum_singleton]
    omega
  · intro hash
    exact ⟨_, _, rfl, sampleSign_verifies hash⟩

end ND.Proof.Honest
