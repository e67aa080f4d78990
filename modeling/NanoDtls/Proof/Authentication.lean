import NanoDtls.Proof.Conduct.Server
import NanoDtls.Proof.Framing

/-!
# Whom a client talks to

Any number of clients and servers run on a network that may do anything with
their datagrams. A run of a server uses `sign_fn` at most once, for the hash of
its own transcript (`signs_once`). A client that accepts has verified a
signature of the hash of its own transcript, under the key of the leaf
(`AcceptingRun.verified`). So, as long as such signatures come from servers and
SHA-256 has no collision among these transcripts, each client that accepts has a
server that has the same transcript and has received this client's random and
key (`server_authenticated`). No server is the partner of two clients that differ
in these.

A record may hold bytes after its message, and they enter the transcript. That
both sides have the same keys is proved for hellos without such bytes.
-/

namespace ND.Proof.Authentication

open ND.Impl Handshake Hello Messages Record Udp Server
open ND.Impl.Client (maxMsg parsePlaintextHandshake)
open Sha256 (sha256)
open Prog (Yields)
open ND.Action (Does)
open Spec.Client (clientHelloMessage signedContent Acceptance)
open Proof.Honest (got sent connected)
open Proof.Conduct Proof.Framing Proof.Handshake
open Agreement (NoCollision)

/-! ## The use of `sign_fn` -/

section Signing

variable {config : ServerConfig} {priv random : BytesN 32} {t : Trace}

/-- The hash that a server asks `sign_fn` to sign after its Certificate. -/
def signedHash (s : Session) : BytesN 32 := sha256 (signedContent (transcriptSnapshot s.transcript))

/-- In the calls `t`, a server comes to ask for a signature of `hash`. -/
def Asks (config : ServerConfig) (priv random : BytesN 32) (t : Trace) (hash : BytesN 32) : Prop :=
  ∃ t' s, t' <+: t ∧ Does (serverToCertVerify config priv random) t' s ∧ hash = signedHash s

/-- `nd_server_handshake` after the Certificate. -/
def afterCertificate (config : ServerConfig) (s : Session) : Io HandshakeKeys := do
  let s ← sendCertificateVerify config s
  let s ← sendFinished s
  let (content, contentType) ← finishedLoop s.clientRead 8 .truncated
  let _ ← check (onFinished s content contentType)
  return s.keys

theorem serverHandshake_eq (config : ServerConfig) (priv random : BytesN 32) :
    serverHandshake config (some priv) (some random) = serverToCertVerify config priv random >>= afterCertificate config := by
  simp only [serverHandshake, serverRun, serverFlight, serverToCertVerify, serverToHello, Action.bind_assoc]
  rfl

/-- What follows the Certificate depends on `sign_fn` at one hash. -/
theorem afterCertificate_congr {f : BytesN 32 → Result (BytesN 32 × BytesN 32)} {s : Session}
    (h : f (signedHash s) = config.signFn (signedHash s)) :
    afterCertificate { config with signFn := f } s = afterCertificate config s := by
  have hbody : certificateVerifyBody { config with signFn := f } (transcriptSnapshot s.transcript) =
      certificateVerifyBody config (transcriptSnapshot s.transcript) := by
    rw [certificateVerifyBody, certificateVerifyBody, Client.certificateVerifyContent_eq, ok_bind, ok_bind]
    exact congrArg (· >>= _) h
  rw [afterCertificate, sendCertificateVerify, hbody]
  rfl

/-- For all calls and answers: a server asks for at most one signature, of the hash of its own
transcript up to the Certificate. Its calls and its result depend on `sign_fn` only there. -/
theorem signs_once (config : ServerConfig) (priv random : BytesN 32) (t : Trace) :
    (∀ hash hash', Asks config priv random t hash → Asks config priv random t hash' → hash = hash') ∧
    ∀ f, (∀ hash, Asks config priv random t hash → f hash = config.signFn hash) → ∀ r,
      Yields (ExceptT.run (serverHandshake { config with signFn := f } (some priv) (some random))) t r ↔
        Yields (ExceptT.run (serverHandshake config (some priv) (some random))) t r := by
  constructor
  · rintro hash hash' ⟨t₁, s₁, ht₁, h₁, rfl⟩ ⟨t₂, s₂, ht₂, h₂, rfl⟩
    obtain ⟨-, hs⟩ := h₁.unique_prefix h₂ ht₁ ht₂
    rw [Except.ok.inj hs]
  · intro f hf r
    -- the Certificate is sent without `sign_fn`
    have hsame : serverToCertVerify { config with signFn := f } priv random = serverToCertVerify config priv random := rfl
    rw [serverHandshake_eq, serverHandshake_eq, hsame, Action.yields_bind_iff, Action.yields_bind_iff]
    refine or_congr Iff.rfl (exists_congr fun t₁ => exists_congr fun t₂ => exists_congr fun s => and_congr_right fun ht =>
      and_congr_right fun hs => ?_)
    rw [afterCertificate_congr (hf _ ⟨t₁, s, ⟨t₂, ht.symm⟩, hs, rfl⟩)]

end Signing

/-! ## A server that has sent its Certificate -/

section Serving

variable {config : ServerConfig} {priv random : BytesN 32} {t : Trace}

/-- Where a server is that has sent its Certificate. -/
theorem serving_of_does {s : Session} (h : Does (serverToCertVerify config priv random) t s) :
    ∃ d, ∃ hello : Conduct.Hello priv random d, ∃ ms, Serving config hello ms s t := by
  obtain ⟨t₁, t₂, s₁, rfl, hhellos, hsends⟩ := h.of_bind
  obtain ⟨_, -, hhellos⟩ := Does.of_check_bind hhellos
  obtain ⟨⟨priv', random', d, hello, hpriv, hrandom, hs₁⟩, -⟩ :=
    (@meets_exchangeHellos config (some priv) (some random)).of_trace hhellos
  cases hpriv
  cases hrandom
  obtain ⟨t₂, t₃, s₂, rfl, hee, hcert⟩ := hsends.of_bind
  obtain ⟨ms₂, hs₂, hn⟩ := hs₁.does_sendNth (n := 0) rfl (by decide) hee
  obtain ⟨ms₃, hs₃, -⟩ := hs₂.does_sendNth hn (by decide) hcert
  rw [← List.append_assoc]
  exact ⟨d, hello, ms₃, hs₃⟩

end Serving

/-! ## Parsing a transcript -/

/-- A parsed message is parsed also with more bytes after it. -/
theorem handshakeParse_append {buf : Bytes} {x : HandshakeHdr × Span} (h : handshakeParse buf = .ok x) (rest : Bytes) :
    handshakeParse (buf ++ rest) = .ok x := by
  obtain ⟨hdr, body⟩ := x
  obtain ⟨hfits, hoff, tail, rfl⟩ := handshakeParse_eq_ok.mp h
  exact handshakeParse_eq_ok.mpr ⟨hfits, hoff, tail ++ rest, List.append_assoc _ _ _⟩

/-- Two transcripts that are equal begin with the same message. -/
theorem handshakeParse_unique {a b rest rest' : Bytes} {x y : HandshakeHdr × Span} (h : a ++ rest = b ++ rest')
    (ha : handshakeParse a = .ok x) (hb : handshakeParse b = .ok y) : x = y := by
  have ha' := handshakeParse_append ha rest
  rw [h, handshakeParse_append hb rest'] at ha'
  exact (Except.ok.inj ha').symm

/-- The record holds a message and nothing after it. -/
def Bare (record : Bytes) : Prop := ∃ hdr body, handshakeParse record = .ok (hdr, body) ∧ record.length = 12 + body.len

/-- Two equal transcripts, both of which begin with a message in a record of its own. -/
theorem Bare.unique {a b rest rest' : Bytes} (h : a ++ rest = b ++ rest') (ha : Bare a) (hb : Bare b) : a = b ∧ rest = rest' := by
  obtain ⟨hdr, body, hparse, hlen⟩ := ha
  obtain ⟨hdr', body', hparse', hlen'⟩ := hb
  obtain ⟨rfl, rfl⟩ := Prod.mk.inj (handshakeParse_unique h hparse hparse')
  exact List.append_inj h (hlen.trans hlen'.symm)

theorem parse_clientHelloMessage (random priv : BytesN 32) : handshakeParse (clientHelloMessage random priv) =
    .ok (header 1 0 113, ⟨12, Spec.Wire.clientHello random.1 (Spec.X25519.publicKey priv).1⟩) := by
  have hlen := Hello.length_clientHello random (Spec.X25519.publicKey priv)
  have hparse := handshakeParse_handshake 1 [] (show 0 < 256 ^ 2 by decide) (show (Spec.Wire.clientHello random.1
    (Spec.X25519.publicKey priv).1).length < 256 ^ 3 by rw [hlen]; decide)
  rwa [List.append_nil, hlen] at hparse

theorem parse_serverHelloMessage (random priv : BytesN 32) : handshakeParse (Server.serverHelloMessage random priv) =
    .ok (header 2 0 86, ⟨12, Spec.Wire.serverHello random.1 (Spec.X25519.publicKey priv).1⟩) := by
  have hlen := Hello.length_serverHello random (Spec.X25519.publicKey priv)
  have hparse := handshakeParse_handshake 2 [] (show 0 < 256 ^ 2 by decide) (show (Spec.Wire.serverHello random.1
    (Spec.X25519.publicKey priv).1).length < 256 ^ 3 by rw [hlen]; decide)
  rwa [List.append_nil, hlen] at hparse

theorem bare_clientHelloMessage (random priv : BytesN 32) : Bare (clientHelloMessage random priv) :=
  ⟨_, _, parse_clientHelloMessage random priv, length_handshake _ _ _⟩

theorem bare_serverHelloMessage (random priv : BytesN 32) : Bare (Server.serverHelloMessage random priv) :=
  ⟨_, _, parse_serverHelloMessage random priv, length_handshake _ _ _⟩

/-! ## Clients and servers -/

/-- A client that accepts. -/
structure AcceptingRun where
  env : Env
  random : BytesN 32
  priv : BytesN 32
  trustAnchor : X509.X509Cert
  atTime : Nat
  acceptance : Acceptance env random priv trustAnchor atTime

/-- The messages that the signature is of. -/
def AcceptingRun.messages (c : AcceptingRun) : Bytes :=
  clientHelloMessage c.random c.priv ++ c.acceptance.sh ++ c.acceptance.ee ++ c.acceptance.cert

/-- The hash of a client's transcript that a server is to sign. -/
def AcceptingRun.signedHash (c : AcceptingRun) : BytesN 32 := sha256 (signedContent (sha256 c.messages))

/-- The signature of the CertificateVerify that a client has received is one of the client's own
hash, under the key of the leaf. -/
def AcceptingRun.Verified (c : AcceptingRun) : Prop :=
  Spec.Ecdsa.Verifies (beNat c.acceptance.leaf.pubkeyQx.1) (beNat c.acceptance.leaf.pubkeyQy.1)
    (beNat c.signedHash.1) (beNat c.acceptance.r.1) (beNat c.acceptance.s.1)

theorem AcceptingRun.verified (c : AcceptingRun) : c.Verified := c.acceptance.signature

/-- A server that has sent its Certificate, after the calls `trace`. -/
structure SigningRun where
  config : ServerConfig
  priv : BytesN 32
  random : BytesN 32
  trace : Trace
  session : Session
  does : Does (serverToCertVerify config priv random) trace session

/-- The messages of a server up to its Certificate. -/
def SigningRun.messages (s : SigningRun) : Bytes := s.session.transcript.fed.flatten

/-- The client and the server have the same transcript. The server has received the client's random
and key in the datagram `d`. If nothing follows the ClientHello in its record, then the client has the
server's random and key, and both have one secret. If nothing follows the ServerHello either, then both
have the same keys. -/
def Partners (c : AcceptingRun) (s : SigningRun) : Prop :=
  c.messages = s.messages ∧ ∃ d, ∃ hello : Conduct.Hello s.priv s.random d, s.trace.head? = some (got d) ∧
    hello.params = ⟨c.random, Spec.X25519.publicKey c.priv⟩ ∧
    (Bare hello.transcript.fed.flatten → c.acceptance.hello.random = s.random ∧
      c.acceptance.hello.keyShare = Spec.X25519.publicKey s.priv ∧
      Spec.X25519.x25519 c.priv c.acceptance.hello.keyShare = Spec.X25519.x25519 s.priv hello.params.x25519PublicKey ∧
      (Bare c.acceptance.sh → c.acceptance.keys = s.session.keys))

theorem partners_of_messages {c : AcceptingRun} {s : SigningRun} (h : c.messages = s.messages) : Partners c s := by
  obtain ⟨d, hello, ms, hs⟩ := serving_of_does s.does
  -- the ClientHello of the server begins the same transcript as that of the client
  obtain ⟨hdr, frag, record, hparse, -, hparams, htranscript⟩ := Server.onClientHello_eq_ok.mp hello.accepted
  obtain ⟨_, body, -, -, hbody, rfl⟩ := Client.parsePlaintextHandshake_eq_ok.mp hparse
  have hrecord : hello.transcript.fed.flatten = record := by rw [htranscript]; exact List.append_nil _
  have hmessages : clientHelloMessage c.random c.priv ++ (c.acceptance.sh ++ (c.acceptance.ee ++ c.acceptance.cert)) =
      record ++ (Server.serverHelloMessage s.random s.priv ++ ms.flatten) := by
    rw [← hrecord, ← List.append_assoc, ← List.append_assoc, ← List.append_assoc]
    exact h.trans hs.transcript
  obtain ⟨-, rfl⟩ := Prod.mk.inj (handshakeParse_unique hmessages (parse_clientHelloMessage c.random c.priv) hbody)
  rw [Hello.clientHelloParse_eq, Except.ok.injEq] at hparams
  refine ⟨h, d, hello, by rw [hs.calls]; rfl, hparams.symm, fun hbare => ?_⟩
  -- the ServerHellos begin what is left of it
  rw [hrecord] at hbare
  obtain ⟨hch, hrest⟩ := Bare.unique hmessages (bare_clientHelloMessage c.random c.priv) hbare
  obtain ⟨_, hsh, -⟩ := c.acceptance.sh_message
  obtain ⟨-, hshBody⟩ := Prod.mk.inj (handshakeParse_unique hrest hsh (parse_serverHelloMessage s.random s.priv))
  have hhello := c.acceptance.sh_parse
  rw [hshBody, Hello.serverHelloParse_eq, Except.ok.injEq] at hhello
  have hrandom : c.acceptance.hello.random = s.random := by rw [← hhello]
  have hshare : c.acceptance.hello.keyShare = Spec.X25519.publicKey s.priv := by rw [← hhello]
  have hsecret : Spec.X25519.x25519 c.priv c.acceptance.hello.keyShare =
      Spec.X25519.x25519 s.priv hello.params.x25519PublicKey := by
    rw [hshare, ← hparams]
    exact X25519.x25519_publicKey_comm c.priv s.priv
  refine ⟨hrandom, hshare, hsecret, fun hbareSh => ?_⟩
  obtain ⟨hshEq, -⟩ := Bare.unique hrest hbareSh (bare_serverHelloMessage s.random s.priv)
  rw [hs.keys, c.acceptance.keys_eq, Conduct.Hello.keys, Conduct.Hello.hellos, hsecret, hrecord, hch, hshEq]

/-- SHA-256 has no collision on the transcripts of a client and a server and on what is signed. -/
structure CollisionFree (c : AcceptingRun) (s : SigningRun) : Prop where
  transcript : NoCollision sha256 c.messages s.messages
  content : NoCollision sha256 (signedContent (sha256 c.messages)) (signedContent (sha256 s.messages))

theorem signedContent_inj {h h' : BytesN 32} (h_eq : signedContent h = signedContent h') : h = h' := by
  rw [signedContent, signedContent] at h_eq
  exact Subtype.ext (List.append_cancel_left h_eq)

/-- For all families of clients that accept and of servers that have sent a Certificate: if the hashes
whose signatures verify under the keys of the clients' leaves were asked of the servers and SHA-256
has no collision among them, then each client has a partner among the servers, and clients with the same partner have the
same random and key. -/
theorem server_authenticated {κ ι : Type} (clients : κ → AcceptingRun) (servers : ι → SigningRun)
    (unforged : ∀ k, (clients k).Verified → ∃ i, (clients k).signedHash = signedHash (servers i).session)
    (free : ∀ k i, CollisionFree (clients k) (servers i)) :
    ∃ partner : κ → ι, (∀ k, Partners (clients k) (servers (partner k))) ∧
      ∀ k k', partner k = partner k' → (clients k).random = (clients k').random ∧
        Spec.X25519.publicKey (clients k).priv = Spec.X25519.publicKey (clients k').priv := by
  choose partner hpartner using fun k => unforged k (clients k).verified
  have hpartners : ∀ k, Partners (clients k) (servers (partner k)) := by
    intro k
    have hsigned := hpartner k
    rw [signedHash, Transcript.transcriptSnapshot_eq] at hsigned
    have hhash := signedContent_inj ((free k (partner k)).content hsigned)
    exact partners_of_messages ((free k (partner k)).transcript hhash)
  refine ⟨partner, hpartners, fun k k' hsame => ?_⟩
  obtain ⟨-, d, hello, hd, hparams, -⟩ := hpartners k
  obtain ⟨-, d', hello', hd', hparams', -⟩ := hpartners k'
  -- the partner has received one ClientHello
  rw [hsame, hd', Option.some.injEq] at hd
  cases hd
  have haccepted := hello.accepted
  rw [hello'.accepted, Except.ok.injEq, Prod.mk.injEq, hparams, hparams'] at haccepted
  obtain ⟨hrandom, hkey⟩ := HelloParams.mk.inj haccepted.1
  exact ⟨hrandom.symm, hkey.symm⟩

/-- A server that serves a client comes to sign the client's transcript. -/
theorem does_serverToCertVerify {config : ServerConfig} {p : Honest.Parties} (h0 : config.certDer ≠ [])
    (h4 : config.certDer.length ≤ 4) (hfits : 12 + (Spec.Wire.certificate p.certDer).length + 1 ≤ 2048)
    (hconfig : p.certDer = config.certDer) (hne : p.shared ≠ zeros 32) :
    ∃ t s, Does (serverToCertVerify config p.serverPriv p.serverRandom) t s ∧ s.transcript = p.signed := by
  let s₀ := Server.sessionOf p.hellos p.shared
  have hcount : failIf (config.certDer.length = 0 ∨ certificateMsgMaxCerts < config.certDer.length) Status.badArg = .ok () := by
    rw [failIf_eq_ok, certificateMsgMaxCerts, List.length_eq_zero_iff, not_or]
    exact ⟨h0, by omega⟩
  have hserialize : certificateSerialize config.certDer maxMsg = .ok (Spec.Wire.certificate p.certDer) := by
    rw [hconfig] at hfits ⊢
    exact Messages.certificateSerialize_eq h0 h4 (by decide) (by rw [maxMsg]; omega)
  have hee : Does (sendEncryptedExtensions s₀) [sent (p.serverRecord 0 Honest.Parties.ee)] (Server.afterSend s₀ Honest.Parties.ee) :=
    Honest.does_sendMessage rfl rfl (by decide)
  have hcert : Does (sendCertificate config (Server.afterSend s₀ Honest.Parties.ee)) [sent (p.serverRecord 1 p.cert)]
      (Server.afterSend (Server.afterSend s₀ Honest.Parties.ee) p.cert) :=
    Honest.does_sendMessage rfl hserialize hfits
  have hhello : Does (serverToHello config p.serverPriv p.serverRandom) _ s₀ :=
    (Honest.does_check hcount).bind (Honest.does_serverExchangeHellos hne)
  exact ⟨_, _, hhello.bind (hee.bind hcert), rfl⟩

/-- A client and a server that run undisturbed are partners, with the same keys. -/
theorem server_authenticated_sample : ∃ (c : AcceptingRun) (s : SigningRun), c.trustAnchor = Honest.sampleAnchor ∧
    s.config = Honest.sampleConfig ∧ Partners c s := by
  obtain ⟨i, j, hserves⟩ := Honest.sample_serves
  obtain ⟨r, s, -, hsigned⟩ := Conduct.sampleParties_signed hserves
  let p := Conduct.sampleParties Honest.sampleConfig r s
  have hclient := Honest.client_does (p := p) hserves rfl X25519.x25519_zeros_ne hsigned 0 (by decide)
  obtain ⟨_, hrun⟩ := Client.exec_eq_ok.mp (Honest.exec_clientFlight (p := p) hclient)
  obtain ⟨a, ha, -⟩ := Client.run_clientFlight.mp hrun
  obtain ⟨t, session, hserver, hsession⟩ := does_serverToCertVerify (p := p) (Honest.serves_ne_nil hserves) hserves.count
    hserves.fits rfl X25519.x25519_zeros_ne
  let client : AcceptingRun := ⟨_, _, _, _, _, a⟩
  let server : SigningRun := ⟨Honest.sampleConfig, _, _, t, session, hserver⟩
  have hfed : [p.ch, p.sh, Honest.Parties.ee, p.cert, p.cv, p.fin] = [p.ch, a.sh, a.ee, a.cert, a.cv, a.fin] :=
    congrArg (·.session.transcript.fed) ha
  have hmessages : client.messages = server.messages := by
    simp only [List.cons.injEq] at hfed
    obtain ⟨-, hsh, hee, hcert, -⟩ := hfed
    have hsignedFed : p.signed.fed.flatten = p.ch ++ p.sh ++ Honest.Parties.ee ++ p.cert := by
      simp only [Honest.Parties.signed, Honest.Parties.hellos, Transcript.flatten_transcriptAdd,
        Transcript.flatten_transcriptInit, List.nil_append]
    rw [AcceptingRun.messages, SigningRun.messages, hsession, hsignedFed, ← hsh, ← hee, ← hcert]
    rfl
  have free : CollisionFree client server := by
    constructor
    · exact fun _ => hmessages
    · exact fun _ => by rw [hmessages]
  obtain ⟨partner, hpartners, -⟩ := server_authenticated (fun _ : Unit => client) (fun _ : Unit => server)
    (fun _ _ => ⟨(), by rw [AcceptingRun.signedHash, signedHash, Transcript.transcriptSnapshot_eq, hmessages]; rfl⟩)
    fun _ _ => free
  exact ⟨client, server, rfl, rfl, hpartners ()⟩

end ND.Proof.Authentication
