import NanoDtls.Proof.Agreement
import Mathlib.Data.List.Forall2

/-!
# The transcript covers `message_seq`

Every message enters the transcript with its Handshake header, so the hashes
of two runs tell apart messages that are equal but for `message_seq`. A run is
followed up to one of the four snapshots of a handshake (`Snapshot`): a
`ClientRun` comes with the messages that were received on the way, which are
those of its transcript (`ClientRun.fed_eq`), and a `ServerRun` with the
ClientHello, on which everything it adds depends (`ServerRun.session_eq`).
Two hashes are equal exactly if the numbers of the messages are, unless
SHA-256 has a collision (`hashes_cover_messageSeq`).
-/

namespace ND.Proof.Framing

open ND.Impl Handshake Messages Record Sha256 Udp X509
open Spec.Client Proof.Transcript Agreement

/-- The snapshots of a handshake: `hello_hash`, `cert_verify_hash`, `server_finished_hash` and
`client_finished_hash`. -/
inductive Snapshot where
  | hello
  | certVerify
  | serverFinished
  | clientFinished

/-- The messages that a client has received when it takes the snapshot. -/
def Snapshot.count : Snapshot → Nat
  | hello => 1
  | certVerify => 3
  | serverFinished => 4
  | clientFinished => 5

/-! ## Messages that differ in `message_seq` -/

/-- `message_seq` of a handshake message. -/
def messageSeq (message : Bytes) : Nat := beNat ((message.drop 4).take 2)

/-- Messages with a Handshake header that are equal but for `message_seq`. -/
structure SameButSeq (a b : Bytes) : Prop where
  header : 12 ≤ a.length
  before : a.take 4 = b.take 4
  after : a.drop 6 = b.drop 6

namespace SameButSeq

theorem length_eq {a b : Bytes} (h : SameButSeq a b) : a.length = b.length := by
  have hlen := congrArg List.length h.after
  have ha := h.header
  rw [List.length_drop, List.length_drop] at hlen
  omega

theorem eq_of_messageSeq {a b : Bytes} (h : SameButSeq a b) (hseq : messageSeq a = messageSeq b) : a = b := by
  have hlen := h.length_eq
  have hmid : (a.drop 4).take 2 = (b.drop 4).take 2 :=
    beNat_inj (by simp only [List.length_take, List.length_drop, hlen]) hseq
  have hsplit : ∀ m : Bytes, m = m.take 4 ++ ((m.drop 4).take 2 ++ m.drop 6) := by
    intro m
    rw [show m.drop 6 = (m.drop 4).drop 2 by rw [List.drop_drop], List.take_append_drop, List.take_append_drop]
  rw [hsplit a, hsplit b, h.before, hmid, h.after]

end SameButSeq

theorem forall₂_eq_iff {m₁ m₂ : List Bytes} (h : List.Forall₂ SameButSeq m₁ m₂) :
    m₁.map messageSeq = m₂.map messageSeq ↔ m₁ = m₂ := by
  induction h with
  | nil => exact ⟨fun _ => rfl, fun _ => rfl⟩
  | cons hab _ ih =>
    rw [List.map_cons, List.map_cons, List.cons.injEq, List.cons.injEq, ih]
    exact and_congr_left fun _ => ⟨hab.eq_of_messageSeq, congrArg messageSeq⟩

/-- Messages of the same lengths can be told apart in one string. -/
theorem flatten_inj {m₁ m₂ : List Bytes} (h : List.Forall₂ SameButSeq m₁ m₂) (hflat : m₁.flatten = m₂.flatten) : m₁ = m₂ := by
  induction h with
  | nil => rfl
  | cons hab _ ih =>
    rw [List.flatten_cons, List.flatten_cons] at hflat
    obtain ⟨rfl, hrest⟩ := List.append_inj hflat hab.length_eq
    rw [ih hrest]

/-- The hashes of two transcripts are equal if `P`, and only if `P` unless the transcripts are a
collision. -/
def SameHashIff (t₁ t₂ : Transcript) (P : Prop) : Prop :=
  (P → transcriptSnapshot t₁ = transcriptSnapshot t₂) ∧
    (NoCollision sha256 t₁.fed.flatten t₂.fed.flatten → transcriptSnapshot t₁ = transcriptSnapshot t₂ → P)

theorem sameHashIff_of {t₁ t₂ : Transcript} {P : Prop} (h : t₁.fed.flatten = t₂.fed.flatten ↔ P) : SameHashIff t₁ t₂ P := by
  rw [SameHashIff, transcriptSnapshot_eq, transcriptSnapshot_eq]
  exact ⟨fun hP => congrArg sha256 (h.mpr hP), fun hno hhash => h.mp (hno hhash)⟩

/-! ## Client runs -/

section Client

open ND.Impl.Client

/-- `nd_client_handshake` up to `cert_verify_hash`: the leaf and the session. -/
def clientToCertVerify (random priv : BytesN 32) (trustAnchor : X509Cert) (atTime : Nat) : Io (X509Cert × Session) := do
  let s ← exchangeHellos random priv
  let (_, s) ← recvEncryptedExtensions s
  recvCertificate s trustAnchor atTime

/-- `nd_client_handshake` up to `server_finished_hash`. -/
def clientToServerFinished (random priv : BytesN 32) (trustAnchor : X509Cert) (atTime : Nat) : Io (Unit × Session) := do
  let (leaf, s) ← clientToCertVerify random priv trustAnchor atTime
  recvCertificateVerify s leaf

/-- `nd_client_handshake` up to `client_finished_hash`. -/
def clientToClientFinished (random priv : BytesN 32) (trustAnchor : X509Cert) (atTime : Nat) :
    Io (BytesN 32 × Session) := do
  let (_, s) ← clientToServerFinished random priv trustAnchor atTime
  recvFinished s

/-- `nd_client_handshake` up to a snapshot, which is that of the session's transcript. -/
def clientUpTo (random priv : BytesN 32) (trustAnchor : X509Cert) (atTime : Nat) : Snapshot → Io Session
  | .hello => exchangeHellos random priv
  | .certVerify => do
    let (_, s) ← clientToCertVerify random priv trustAnchor atTime
    return s
  | .serverFinished => do
    let (_, s) ← clientToServerFinished random priv trustAnchor atTime
    return s
  | .clientFinished => do
    let (_, s) ← clientToClientFinished random priv trustAnchor atTime
    return s

/-- The contents of protected records in the datagrams from the `k`-th on, unprotected one after the
other. -/
def Opened (env : Env) : Nat → RecordUnprotection → List Bytes → RecordUnprotection → Prop
  | _, u, [], u' => u' = u
  | k, u, content :: rest, u' => ∃ u₁, Opens env k u content u₁ ∧ Opened env (k + 1) u₁ rest u'

/-- The messages that a client with these keys receives: the first reply to its ClientHello, and the
contents of the records after it. -/
def Hears (env : Env) (keys : HandshakeKeys) (messages : List Bytes) : Prop :=
  ∃ i sh rest u, messages = sh :: rest ∧ FirstReply env i sh ∧
    Opened env (receivesBefore env i + 1) (recordUnprotectionInit keys.serverWriteKey keys.serverWriteIv 2) rest u

/-- A run of a client with this randomness up to a snapshot, and the messages it received. -/
structure ClientRun (random priv : BytesN 32) (k : Snapshot) where
  env : Env
  trustAnchor : X509Cert
  atTime : Nat
  session : Session
  run : exec env (clientUpTo random priv trustAnchor atTime k) = .ok session
  messages : List Bytes
  count : messages.length = k.count
  hears : Hears env session.keys messages

variable {env : Env} {random priv : BytesN 32} {trustAnchor : X509Cert} {atTime : Nat}

/-! What a client hears is determined by its environment and its keys. -/

theorem FirstReply.unique {i j : Nat} {r r' : Bytes} (h : FirstReply env i r) (h' : FirstReply env j r') : i = j ∧ r = r' := by
  obtain ⟨d, hd, hr⟩ := h.reply
  obtain ⟨d', hd', hr'⟩ := h'.reply
  rcases Nat.lt_trichotomy i j with hlt | rfl | hlt
  · exact absurd hr (h'.first i hlt h.sent d hd r)
  · obtain ⟨_, _, hp, _⟩ := hr
    obtain ⟨_, _, hp', _⟩ := hr'
    rw [hd, Option.some.injEq] at hd'
    rw [hd', hp', Except.ok.injEq, Prod.mk.injEq] at hp
    exact ⟨rfl, hp.2.symm⟩
  · exact absurd hr' (h.first j hlt h'.sent d' hd' r')

theorem Opens.unique {k : Nat} {u u₁ u₂ : RecordUnprotection} {a b : Bytes} (h : Opens env k u a u₁)
    (h' : Opens env k u b u₂) : a = b ∧ u₁ = u₂ := by
  obtain ⟨d, hd, ha⟩ := h
  obtain ⟨d', hd', hb⟩ := h'
  rw [hd, Option.some.injEq] at hd'
  rw [hd', hb, Except.ok.injEq, Prod.mk.injEq, Prod.mk.injEq] at ha
  exact ⟨ha.1.symm, ha.2.2.symm⟩

theorem Opened.unique : ∀ {k : Nat} {u u₁ u₂ : RecordUnprotection} {as bs : List Bytes}, Opened env k u as u₁ →
    Opened env k u bs u₂ → as.length = bs.length → as = bs
  | _, _, _, _, [], [], _, _, _ => rfl
  | _, _, _, _, _ :: _, _ :: _, ⟨_, ha, has⟩, ⟨_, hb, hbs⟩, hlen => by
    obtain ⟨rfl, rfl⟩ := Opens.unique ha hb
    rw [Opened.unique has hbs (Nat.succ.inj hlen)]

theorem Hears.unique {keys : HandshakeKeys} {m m' : List Bytes} (h : Hears env keys m) (h' : Hears env keys m')
    (hlen : m.length = m'.length) : m = m' := by
  obtain ⟨i, sh, rest, u, rfl, hreply, hopened⟩ := h
  obtain ⟨i', sh', rest', u', rfl, hreply', hopened'⟩ := h'
  obtain ⟨rfl, rfl⟩ := FirstReply.unique hreply hreply'
  rw [Opened.unique hopened hopened' (Nat.succ.inj hlen)]

theorem Opened.concat : ∀ {k : Nat} {u u₁ u₂ : RecordUnprotection} {rest : List Bytes} {content : Bytes},
    Opened env k u rest u₁ → Opens env (k + rest.length) u₁ content u₂ → Opened env k u (rest ++ [content]) u₂
  | _, _, _, _, [], _, rfl, h => ⟨_, h, rfl⟩
  | k, _, _, _, _ :: rest, _, ⟨u, ha, has⟩, h => by
    rw [List.length_cons, Nat.add_comm rest.length, ← Nat.add_assoc] at h
    exact ⟨u, ha, Opened.concat has h⟩

/-- Between two receives: the messages so far are those of the transcript after the ClientHello. -/
structure Heard (env : Env) (random priv : BytesN 32) (s : Session) (c : Calls) (messages : List Bytes) : Prop where
  fed : s.transcript.fed = clientHelloMessage random priv :: messages
  hears : ∃ i sh rest, messages = sh :: rest ∧ FirstReply env i sh ∧ c.received = receivesBefore env i + 1 + rest.length ∧
    Opened env (receivesBefore env i + 1) (recordUnprotectionInit s.keys.serverWriteKey s.keys.serverWriteIv 2) rest
      s.serverRead

theorem heard_hello {s : Session} {c : Calls}
    (h : Action.run env.answer (exchangeHellos random priv) ⟨0, 0⟩ = (.ok s, c)) : ∃ sh, Heard env random priv s c [sh] := by
  obtain ⟨i, sh, _, _, hreply, _, _, _, _, rfl, rfl⟩ := Proof.Client.run_exchangeHellos.mp h
  exact ⟨sh, rfl, i, sh, [], rfl, hreply, rfl, rfl⟩

/-- A message is received. -/
theorem Heard.recv {α : Type} {s s' : Session} {c c' : Calls} {messages : List Bytes} {msgType : Byte}
    {accept : Span → Result α} {a : α} (h : Heard env random priv s c messages)
    (hrun : Action.run env.answer (recvMessage s msgType accept) c = (.ok (a, s'), c')) :
    ∃ content, Heard env random priv s' c' (messages ++ [content]) := by
  obtain ⟨content, _, u, ⟨hopens, _, rfl, rfl⟩, _⟩ := Proof.Client.run_recvMessage.mp hrun
  obtain ⟨i, sh, rest, rfl, hreply, hcalls, hopened⟩ := h.hears
  refine ⟨content, ?_, i, sh, rest ++ [content], rfl, hreply, ?_, ?_⟩
  · simp only [Proof.Client.afterMessage, transcriptAdd, h.fed, List.cons_append]
  · rw [hcalls, List.length_append, List.length_singleton, Nat.add_assoc]
  · rw [hcalls] at hopens
    exact hopened.concat hopens

theorem heard_certVerify {s : Session} {c : Calls} {leaf : X509Cert}
    (h : Action.run env.answer (clientToCertVerify random priv trustAnchor atTime) ⟨0, 0⟩ = (.ok (leaf, s), c)) :
    ∃ messages, messages.length = 3 ∧ Heard env random priv s c messages := by
  simp only [clientToCertVerify, Action.run_bind_eq_ok, Prod.exists] at h
  obtain ⟨s₁, c₁, hhello, _, s₂, c₂, hee, hcert⟩ := h
  obtain ⟨sh, h₁⟩ := heard_hello hhello
  obtain ⟨ee, h₂⟩ := h₁.recv hee
  obtain ⟨cert, h₃⟩ := h₂.recv hcert
  exact ⟨_, rfl, h₃⟩

theorem heard_serverFinished {s : Session} {c : Calls} {u : Unit}
    (h : Action.run env.answer (clientToServerFinished random priv trustAnchor atTime) ⟨0, 0⟩ = (.ok (u, s), c)) :
    ∃ messages, messages.length = 4 ∧ Heard env random priv s c messages := by
  simp only [clientToServerFinished, Action.run_bind_eq_ok, Prod.exists] at h
  obtain ⟨leaf, s₁, c₁, hcert, hcv⟩ := h
  obtain ⟨messages, hlen, h₁⟩ := heard_certVerify hcert
  obtain ⟨cv, h₂⟩ := h₁.recv hcv
  exact ⟨_, by rw [List.length_append, hlen, List.length_singleton], h₂⟩

theorem heard_clientFinished {s : Session} {c : Calls} {v : BytesN 32}
    (h : Action.run env.answer (clientToClientFinished random priv trustAnchor atTime) ⟨0, 0⟩ = (.ok (v, s), c)) :
    ∃ messages, messages.length = 5 ∧ Heard env random priv s c messages := by
  simp only [clientToClientFinished, Action.run_bind_eq_ok, Prod.exists] at h
  obtain ⟨_, s₁, c₁, hcv, hfin⟩ := h
  obtain ⟨messages, hlen, h₁⟩ := heard_serverFinished hcv
  obtain ⟨fin, h₂⟩ := h₁.recv hfin
  exact ⟨_, by rw [List.length_append, hlen, List.length_singleton], h₂⟩

/-- Up to every snapshot, the messages that were heard are those of the transcript. -/
theorem heard_upTo {s : Session} {k : Snapshot} (h : exec env (clientUpTo random priv trustAnchor atTime k) = .ok s) :
    ∃ messages c, messages.length = k.count ∧ Heard env random priv s c messages := by
  obtain ⟨c, h⟩ := Proof.Client.exec_eq_ok.mp h
  cases k with
  | hello =>
    obtain ⟨sh, hheard⟩ := heard_hello h
    exact ⟨[sh], c, rfl, hheard⟩
  | certVerify =>
    simp only [clientUpTo, Action.run_bind_eq_ok, Proof.Client.run_pure_eq_ok, Prod.exists] at h
    obtain ⟨leaf, _, c', h, rfl, rfl⟩ := h
    obtain ⟨messages, hlen, hheard⟩ := heard_certVerify h
    exact ⟨messages, c, hlen, hheard⟩
  | serverFinished =>
    simp only [clientUpTo, Action.run_bind_eq_ok, Proof.Client.run_pure_eq_ok, Prod.exists] at h
    obtain ⟨_, _, c', h, rfl, rfl⟩ := h
    obtain ⟨messages, hlen, hheard⟩ := heard_serverFinished h
    exact ⟨messages, c, hlen, hheard⟩
  | clientFinished =>
    simp only [clientUpTo, Action.run_bind_eq_ok, Proof.Client.run_pure_eq_ok, Prod.exists] at h
    obtain ⟨_, _, c', h, rfl, rfl⟩ := h
    obtain ⟨messages, hlen, hheard⟩ := heard_clientFinished h
    exact ⟨messages, c, hlen, hheard⟩

theorem Heard.hears_keys {s : Session} {c : Calls} {messages : List Bytes} (h : Heard env random priv s c messages) :
    Hears env s.keys messages := by
  obtain ⟨i, sh, rest, hm, hreply, _, hopened⟩ := h.hears
  exact ⟨i, sh, rest, _, hm, hreply, hopened⟩

/-- Every run up to a snapshot is a `ClientRun`. -/
theorem exists_clientRun {s : Session} {k : Snapshot} (h : exec env (clientUpTo random priv trustAnchor atTime k) = .ok s) :
    ∃ r : ClientRun random priv k, r.env = env ∧ r.session = s := by
  obtain ⟨messages, _, hlen, hheard⟩ := heard_upTo h
  exact ⟨⟨env, trustAnchor, atTime, s, h, messages, hlen, hheard.hears_keys⟩, rfl, rfl⟩

theorem ClientRun.fed_eq {k : Snapshot} (r : ClientRun random priv k) :
    r.session.transcript.fed = clientHelloMessage random priv :: r.messages := by
  obtain ⟨messages, _, hlen, hheard⟩ := heard_upTo r.run
  rw [hheard.fed, Hears.unique hheard.hears_keys r.hears (hlen.trans r.count.symm)]

theorem client_sameHashIff {k : Snapshot} (r₁ r₂ : ClientRun random priv k)
    (h : List.Forall₂ SameButSeq r₁.messages r₂.messages) :
    SameHashIff r₁.session.transcript r₂.session.transcript (r₁.messages.map messageSeq = r₂.messages.map messageSeq) := by
  apply sameHashIff_of
  rw [forall₂_eq_iff h, r₁.fed_eq, r₂.fed_eq, List.flatten_cons, List.flatten_cons, List.append_cancel_left_eq]
  exact ⟨flatten_inj h, congrArg List.flatten⟩

/-- A run that comes to the last send passes every snapshot; the last is that of its session. -/
theorem upTo_of_flight {f : ClientFlight}
    (h : exec env (clientFlight (some random) (some priv) trustAnchor atTime) = .ok f) (k : Snapshot) :
    ∃ s, exec env (clientUpTo random priv trustAnchor atTime k) = .ok s ∧ (k = .clientFinished → s = f.session) := by
  obtain ⟨c, h⟩ := Proof.Client.exec_eq_ok.mp h
  simp only [clientFlight, randomBytes, Action.run_bind_eq_ok, Proof.Client.run_check_eq_ok, Proof.Client.run_pure_eq_ok,
    Prod.exists, Except.ok.injEq] at h
  obtain ⟨_, _, ⟨rfl, rfl⟩, _, _, ⟨rfl, rfl⟩, s₁, c₁, hhello, _, s₂, c₂, hee, leaf, s₃, c₃, hcert, _, s₄, c₄, hcv, _, s₅, c₅,
    hfin, _, _, _, _, rfl, _⟩ := h
  have h₃ : Action.run env.answer (clientToCertVerify random priv trustAnchor atTime) ⟨0, 0⟩ = (.ok (leaf, s₃), c₃) := by
    simp only [clientToCertVerify, Action.run_bind_eq_ok, Prod.exists]
    exact ⟨s₁, c₁, hhello, _, s₂, c₂, hee, hcert⟩
  have h₄ : Action.run env.answer (clientToServerFinished random priv trustAnchor atTime) ⟨0, 0⟩ = (.ok ((), s₄), c₄) := by
    simp only [clientToServerFinished, Action.run_bind_eq_ok, Prod.exists]
    exact ⟨leaf, s₃, c₃, h₃, hcv⟩
  have h₅ : Action.run env.answer (clientToClientFinished random priv trustAnchor atTime) ⟨0, 0⟩ = (.ok (_, s₅), c₅) :=
    (Action.run_bind_eq_ok _).mpr ⟨((), s₄), c₄, h₄, hfin⟩
  simp only [Proof.Client.exec_eq_ok]
  cases k with
  | hello => exact ⟨s₁, ⟨c₁, hhello⟩, fun h => by cases h⟩
  | certVerify => exact ⟨s₃, ⟨c₃, (Action.run_bind_eq_ok _).mpr ⟨_, _, h₃, rfl⟩⟩, fun h => by cases h⟩
  | serverFinished => exact ⟨s₄, ⟨c₄, (Action.run_bind_eq_ok _).mpr ⟨_, _, h₄, rfl⟩⟩, fun h => by cases h⟩
  | clientFinished => exact ⟨s₅, ⟨c₅, (Action.run_bind_eq_ok _).mpr ⟨_, _, h₅, rfl⟩⟩, fun _ => rfl⟩

end Client

/-! ## Server runs -/

section Server

open ND.Impl.Server Proof.Server
open ND.Impl.Client (maxMsg)

/-- `nd_server_handshake` up to `hello_hash`. -/
def serverToHello (config : ServerConfig) (priv random : BytesN 32) : Io Session := do
  check (failIf (config.certDer.length = 0 ∨ certificateMsgMaxCerts < config.certDer.length) .badArg)
  exchangeHellos (some priv) (some random)

/-- `nd_server_handshake` up to `cert_verify_hash`. -/
def serverToCertVerify (config : ServerConfig) (priv random : BytesN 32) : Io Session := do
  let s ← serverToHello config priv random
  let s ← sendEncryptedExtensions s
  sendCertificate config s

/-- `nd_server_handshake` up to `server_finished_hash`. -/
def serverToServerFinished (config : ServerConfig) (priv random : BytesN 32) : Io Session := do
  let s ← serverToCertVerify config priv random
  sendCertificateVerify config s

/-- `nd_server_handshake` up to `client_finished_hash`. -/
def serverToClientFinished (config : ServerConfig) (priv random : BytesN 32) : Io Session := do
  let s ← serverToServerFinished config priv random
  sendFinished s

/-- `nd_server_handshake` up to a snapshot, which is that of the session's transcript. -/
def serverUpTo (config : ServerConfig) (priv random : BytesN 32) : Snapshot → Io Session
  | .hello => serverToHello config priv random
  | .certVerify => serverToCertVerify config priv random
  | .serverFinished => serverToServerFinished config priv random
  | .clientFinished => serverToClientFinished config priv random

/-- The first datagram is a record with this ClientHello. -/
def Greeted (env : Env) (clientHello : Bytes) : Prop := ∃ d, received env 0 = some d ∧ IsReply d clientHello

/-- A run of a server with this configuration and randomness up to a snapshot, and the ClientHello it
received. -/
structure ServerRun (config : ServerConfig) (priv random : BytesN 32) (k : Snapshot) where
  env : Env
  session : Session
  run : exec env (serverUpTo config priv random k) = .ok session
  clientHello : Bytes
  greeted : Greeted env clientHello

variable {env env₁ env₂ : Env} {config : ServerConfig} {priv random : BytesN 32}

theorem IsReply.unique {d a b : Bytes} (h : IsReply d a) (h' : IsReply d b) : a = b := by
  obtain ⟨_, _, hp, _⟩ := h
  obtain ⟨_, _, hp', _⟩ := h'
  rw [hp', Except.ok.injEq, Prod.mk.injEq] at hp
  exact hp.2.symm

theorem Greeted.unique {a b : Bytes} (h : Greeted env a) (h' : Greeted env b) : a = b := by
  obtain ⟨d, hd, hr⟩ := h
  obtain ⟨d', hd', hr'⟩ := h'
  rw [hd, Option.some.injEq] at hd'
  exact IsReply.unique hr (hd' ▸ hr')

theorem run_udpServerAcceptPeer {c c' : Calls} {d : Bytes}
    (h : Action.run env.answer (udpServerAcceptPeer maxMsg) c = (.ok d, c')) : received env c.received = some d := by
  simp only [udpServerAcceptPeer, Action.run_bind_eq_ok, Proof.Client.run_udpRecv_eq_ok, Proof.Client.run_check_eq_ok,
    Proof.Client.run_pure_eq_ok] at h
  obtain ⟨_, _, ⟨hd, _⟩, _, _, _, _, _, _, rfl, _⟩ := h
  exact hd

/-- The session after the hellos is determined by the ClientHello. -/
theorem run_serverToHello {s : Session} {c : Calls}
    (h : Action.run env.answer (serverToHello config priv random) ⟨0, 0⟩ = (.ok s, c)) :
    ∃ ch hdr body params, Greeted env ch ∧ handshakeParse ch = .ok (hdr, body) ∧
      Hello.clientHelloParse body.bytes = .ok params ∧
      s = sessionOf (transcriptAdd (transcriptAdd transcriptInit ch) (serverHelloMessage random priv))
        (Spec.X25519.x25519 priv params.x25519PublicKey) := by
  simp only [serverToHello, exchangeHellos, Client.randomBytes, Action.run_bind_eq_ok, Proof.Client.run_check_eq_ok,
    Prod.exists, startSession_eq_ok, serverHello_eq, onClientHello_eq_ok, Except.ok.injEq, Prod.mk.injEq] at h
  obtain ⟨_, _, ⟨_, rfl⟩, d, _, hd, params, _, _, ⟨⟨hdr, _, ch, hp, _, hch, rfl⟩, _⟩, _, _, ⟨rfl, _⟩, _, _, ⟨rfl, _⟩, _, _, _,
    ⟨⟨_, rfl⟩, _⟩, _, _, _, ⟨_, rfl⟩, _⟩ := h
  obtain ⟨_, body, _, _, hh, rfl⟩ := Proof.Client.parsePlaintextHandshake_eq_ok.mp hp
  exact ⟨ch, hdr, body, params, ⟨d, run_udpServerAcceptPeer hd, Proof.Client.isReply_iff.mpr ⟨_, _, hp⟩⟩, hh, hch, rfl⟩

/-- A message that is sent depends on the session alone. -/
theorem sendMessage_agrees (s : Session) (msgType : Byte) (messageSeq : Nat) (body : Result Bytes) (c₁ c₂ : Calls) :
    Action.Agrees env₁.answer env₂.answer (sendMessage s msgType messageSeq body) c₁ c₂ := by
  intro _ _ _ _ h₁ h₂
  obtain ⟨b₁, hb₁, _, _, rfl, _⟩ := run_sendMessage.mp h₁
  obtain ⟨b₂, hb₂, _, _, rfl, _⟩ := run_sendMessage.mp h₂
  rw [hb₁, Except.ok.injEq] at hb₂
  rw [hb₂]

theorem hello_agrees {ch : Bytes} (h₁ : Greeted env₁ ch) (h₂ : Greeted env₂ ch) :
    Action.Agrees env₁.answer env₂.answer (serverToHello config priv random) ⟨0, 0⟩ ⟨0, 0⟩ := by
  intro _ _ _ _ hrun₁ hrun₂
  obtain ⟨ch₁, hdr, body, params, hg₁, hh, hp, rfl⟩ := run_serverToHello hrun₁
  obtain ⟨ch₂, hdr', body', params', hg₂, hh', hp', rfl⟩ := run_serverToHello hrun₂
  obtain rfl := hg₁.unique h₁
  obtain rfl := hg₂.unique h₂
  rw [hh, Except.ok.injEq, Prod.mk.injEq] at hh'
  rw [← hh'.2, hp, Except.ok.injEq] at hp'
  rw [hp']

theorem upTo_agrees {ch : Bytes} (h₁ : Greeted env₁ ch) (h₂ : Greeted env₂ ch) (k : Snapshot) :
    Action.Agrees env₁.answer env₂.answer (serverUpTo config priv random k) ⟨0, 0⟩ ⟨0, 0⟩ := by
  have hhello : Action.Agrees env₁.answer env₂.answer (serverToHello config priv random) ⟨0, 0⟩ ⟨0, 0⟩ := hello_agrees h₁ h₂
  have hcert : Action.Agrees env₁.answer env₂.answer (serverToCertVerify config priv random) ⟨0, 0⟩ ⟨0, 0⟩ :=
    hhello.bind fun s c₁ c₂ => (sendMessage_agrees s _ _ _ c₁ c₂).bind fun s => sendMessage_agrees s _ _ _
  have hcv : Action.Agrees env₁.answer env₂.answer (serverToServerFinished config priv random) ⟨0, 0⟩ ⟨0, 0⟩ :=
    hcert.bind fun s => sendMessage_agrees s _ _ _
  cases k with
  | hello => exact hhello
  | certVerify => exact hcert
  | serverFinished => exact hcv
  | clientFinished => exact hcv.bind fun s => sendMessage_agrees s _ _ _

/-- What a server sends is added behind what it has. -/
theorem fed_sendMessage {s s' : Session} {msgType : Byte} {messageSeq : Nat} {body : Result Bytes} {c c' : Calls}
    (h : Action.run env.answer (sendMessage s msgType messageSeq body) c = (.ok s', c')) :
    s.transcript.fed <+: s'.transcript.fed := by
  obtain ⟨b, _, _, _, rfl, _⟩ := run_sendMessage.mp h
  exact List.prefix_append _ _

theorem greeted_upTo {s : Session} {k : Snapshot} (h : exec env (serverUpTo config priv random k) = .ok s) :
    ∃ ch, Greeted env ch ∧ [ch] <+: s.transcript.fed := by
  have hhello : ∀ {s c}, Action.run env.answer (serverToHello config priv random) ⟨0, 0⟩ = (.ok s, c) →
      ∃ ch, Greeted env ch ∧ [ch] <+: s.transcript.fed := by
    intro s c hrun
    obtain ⟨ch, _, _, _, hg, _, _, rfl⟩ := run_serverToHello hrun
    exact ⟨ch, hg, ⟨[serverHelloMessage random priv], rfl⟩⟩
  have hcert : ∀ {s c}, Action.run env.answer (serverToCertVerify config priv random) ⟨0, 0⟩ = (.ok s, c) →
      ∃ ch, Greeted env ch ∧ [ch] <+: s.transcript.fed := by
    intro s c hrun
    simp only [serverToCertVerify, Action.run_bind_eq_ok] at hrun
    obtain ⟨s₁, c₁, h₁, s₂, c₂, h₂, h₃⟩ := hrun
    obtain ⟨ch, hg, hp⟩ := hhello h₁
    exact ⟨ch, hg, (hp.trans (fed_sendMessage h₂)).trans (fed_sendMessage h₃)⟩
  have hcv : ∀ {s c}, Action.run env.answer (serverToServerFinished config priv random) ⟨0, 0⟩ = (.ok s, c) →
      ∃ ch, Greeted env ch ∧ [ch] <+: s.transcript.fed := by
    intro s c hrun
    obtain ⟨s₁, c₁, h₁, h₂⟩ := (Action.run_bind_eq_ok _).mp hrun
    obtain ⟨ch, hg, hp⟩ := hcert h₁
    exact ⟨ch, hg, hp.trans (fed_sendMessage h₂)⟩
  obtain ⟨c, h⟩ := Proof.Client.exec_eq_ok.mp h
  cases k with
  | hello => exact hhello h
  | certVerify => exact hcert h
  | serverFinished => exact hcv h
  | clientFinished =>
    obtain ⟨s₁, c₁, h₁, h₂⟩ := (Action.run_bind_eq_ok _).mp h
    obtain ⟨ch, hg, hp⟩ := hcv h₁
    exact ⟨ch, hg, hp.trans (fed_sendMessage h₂)⟩

/-- Every run up to a snapshot is a `ServerRun`. -/
theorem exists_serverRun {s : Session} {k : Snapshot} (h : exec env (serverUpTo config priv random k) = .ok s) :
    ∃ r : ServerRun config priv random k, r.env = env ∧ r.session = s := by
  obtain ⟨ch, hg, _⟩ := greeted_upTo h
  exact ⟨⟨env, s, h, ch, hg⟩, rfl, rfl⟩

theorem ServerRun.fed_eq {k : Snapshot} (r : ServerRun config priv random k) :
    ∃ rest, r.session.transcript.fed = r.clientHello :: rest := by
  obtain ⟨ch, hg, rest, hfed⟩ := greeted_upTo r.run
  exact ⟨rest, by rw [← hfed, hg.unique r.greeted, List.singleton_append]⟩

theorem ServerRun.session_eq {k : Snapshot} (r₁ r₂ : ServerRun config priv random k)
    (h : r₁.clientHello = r₂.clientHello) : r₁.session = r₂.session := by
  obtain ⟨_, hrun₁⟩ := Proof.Client.exec_eq_ok.mp r₁.run
  obtain ⟨_, hrun₂⟩ := Proof.Client.exec_eq_ok.mp r₂.run
  exact upTo_agrees r₁.greeted (h ▸ r₂.greeted) k _ _ _ _ hrun₁ hrun₂

theorem server_sameHashIff {k : Snapshot} (r₁ r₂ : ServerRun config priv random k)
    (h : SameButSeq r₁.clientHello r₂.clientHello) :
    SameHashIff r₁.session.transcript r₂.session.transcript (messageSeq r₁.clientHello = messageSeq r₂.clientHello) := by
  apply sameHashIff_of
  obtain ⟨rest₁, hfed₁⟩ := r₁.fed_eq
  obtain ⟨rest₂, hfed₂⟩ := r₂.fed_eq
  constructor
  · intro hflat
    rw [hfed₁, hfed₂, List.flatten_cons, List.flatten_cons] at hflat
    exact congrArg messageSeq (List.append_inj hflat h.length_eq).1
  · intro hseq
    rw [r₁.session_eq r₂ (h.eq_of_messageSeq hseq)]

/-- `nd_server_handshake` up to its own Finished is the run up to the last snapshot. -/
theorem exec_serverFlight {s : Session} : exec env (serverFlight config (some priv) (some random)) = .ok s ↔
    exec env (serverUpTo config priv random .clientFinished) = .ok s := by
  simp only [Proof.Client.exec_eq_ok, serverFlight, serverUpTo, serverToClientFinished, serverToServerFinished,
    serverToCertVerify, serverToHello, Action.run_bind_eq_ok]
  constructor
  · intro h
    rcases h with ⟨c, u, c₁, h₁, s₂, c₂, h₂, s₃, c₃, h₃, s₄, c₄, h₄, s₅, c₅, h₅, h₆⟩
    exact ⟨c, s₅, c₅, ⟨s₄, c₄, ⟨s₂, c₂, ⟨u, c₁, h₁, h₂⟩, s₃, c₃, h₃, h₄⟩, h₅⟩, h₆⟩
  · intro h
    rcases h with ⟨c, s₅, c₅, ⟨s₄, c₄, ⟨s₂, c₂, ⟨u, c₁, h₁, h₂⟩, s₃, c₃, h₃, h₄⟩, h₅⟩, h₆⟩
    exact ⟨c, u, c₁, h₁, s₂, c₂, h₂, s₃, c₃, h₃, s₄, c₄, h₄, s₅, c₅, h₅, h₆⟩

end Server

/-! ## Both sides -/

/-- For two runs of a client with the same randomness whose messages are equal but for `message_seq`,
and two of a server whose ClientHellos are: at each snapshot the hashes are equal if the numbers are,
and only then unless the two transcripts are a collision of SHA-256. -/
theorem hashes_cover_messageSeq (k : Snapshot) :
    (∀ (random priv : BytesN 32) (r₁ r₂ : ClientRun random priv k), List.Forall₂ SameButSeq r₁.messages r₂.messages →
      SameHashIff r₁.session.transcript r₂.session.transcript
        (r₁.messages.map messageSeq = r₂.messages.map messageSeq)) ∧
    ∀ (config : Server.ServerConfig) (priv random : BytesN 32) (r₁ r₂ : ServerRun config priv random k),
      SameButSeq r₁.clientHello r₂.clientHello →
        SameHashIff r₁.session.transcript r₂.session.transcript
          (messageSeq r₁.clientHello = messageSeq r₂.clientHello) :=
  ⟨fun _ _ => client_sameHashIff, fun _ _ _ => server_sameHashIff⟩

/-- A ServerHello with a number of its own. -/
def numberedHello (seq : Nat) : Bytes :=
  Spec.Wire.handshake 2 seq (Spec.Wire.serverHello (zeros 32).1 (Spec.X25519.publicKey (zeros 32)).1)

theorem length_numberedHello (seq : Nat) : (numberedHello seq).length = 98 := by
  rw [numberedHello, Handshake.length_handshake, Proof.Hello.length_serverHello]

/-- A client that is answered with it. -/
theorem exists_numberedRun {seq : Nat} (hseq : seq < 256 ^ 2) :
    ∃ r : ClientRun (zeros 32) (zeros 32) .hello, r.messages = [numberedHello seq] ∧
      r.session.transcript.fed = [clientHelloMessage (zeros 32) (zeros 32), numberedHello seq] := by
  have hlen := Proof.Hello.length_serverHello (zeros 32) (Spec.X25519.publicKey (zeros 32))
  have hparse := Handshake.handshakeParse_handshake 2 [] hseq
    (show (Spec.Wire.serverHello (zeros 32).1 (Spec.X25519.publicKey (zeros 32)).1).length < 256 ^ 3 by rw [hlen]; decide)
  rw [List.append_nil, hlen] at hparse
  have hreceived : received (Honest.delivers [Spec.Wire.plaintextRecord (numberedHello seq)]) 0 =
      some (Spec.Wire.plaintextRecord (numberedHello seq)) := by
    refine congrArg some (List.take_of_length_le ?_)
    simp only [Spec.Wire.plaintextRecord, List.length_append, Spec.Wire.length_vec, length_numberedHello, length_beBytes,
      List.length_singleton]
    decide
  have hreply : FirstReply (Honest.delivers [Spec.Wire.plaintextRecord (numberedHello seq)]) 0 (numberedHello seq) :=
    { bound := by decide, sent := rfl, first := fun j hj => absurd hj (Nat.not_lt_zero j)
      reply := ⟨_, hreceived, _, _, Handshake.plaintextParse_record (by rw [length_numberedHello]; decide), rfl, _, hparse⟩ }
  have hrun : ∃ s c, Action.run (Honest.delivers [Spec.Wire.plaintextRecord (numberedHello seq)]).answer
      (Impl.Client.exchangeHellos (zeros 32) (zeros 32)) ⟨0, 0⟩ = (.ok s, c) ∧
        s.transcript.fed = [clientHelloMessage (zeros 32) (zeros 32), numberedHello seq] :=
    ⟨_, _, Proof.Client.run_exchangeHellos.mpr ⟨0, numberedHello seq, _, _, hreply, ⟨_, hparse, rfl, rfl, rfl⟩,
      Proof.Hello.serverHelloParse_eq _ _, rfl, X25519.x25519_zeros_ne, rfl, rfl⟩, rfl⟩
  obtain ⟨s, c, hrun, hfed⟩ := hrun
  exact ⟨⟨_, Honest.sampleAnchor, 0, s, Proof.Client.exec_eq_ok.mpr ⟨c, hrun⟩, [numberedHello seq], rfl,
    0, _, [], _, rfl, hreply, rfl⟩, rfl, hfed⟩

theorem sameButSeq_numberedHello (seq seq' : Nat) : SameButSeq (numberedHello seq) (numberedHello seq') where
  header := by rw [length_numberedHello]; decide
  before := rfl
  after := rfl

/-- Two ServerHellos that are equal but for `message_seq`, and the two values of `hello_hash`. -/
theorem hello_hash_differs :
    ∃ r₁ r₂ : ClientRun (zeros 32) (zeros 32) .hello, List.Forall₂ SameButSeq r₁.messages r₂.messages ∧
      transcriptSnapshot r₁.session.transcript ≠ transcriptSnapshot r₂.session.transcript := by
  obtain ⟨r₁, hm₁, hfed₁⟩ := exists_numberedRun (show 0 < 256 ^ 2 by decide)
  obtain ⟨r₂, hm₂, hfed₂⟩ := exists_numberedRun (show 1 < 256 ^ 2 by decide)
  refine ⟨r₁, r₂, ?_, ?_⟩
  · rw [hm₁, hm₂]
    exact .cons (sameButSeq_numberedHello 0 1) .nil
  · rw [transcriptSnapshot_eq, transcriptSnapshot_eq, hfed₁, hfed₂]
    simp only [clientHelloMessage, numberedHello, X25519.publicKey_zeros]
    decide +kernel

/-- The same two runs. -/
theorem hello_hash_covers :
    ∃ r₁ r₂ : ClientRun (zeros 32) (zeros 32) .hello, List.Forall₂ SameButSeq r₁.messages r₂.messages ∧
      SameHashIff r₁.session.transcript r₂.session.transcript
        (r₁.messages.map messageSeq = r₂.messages.map messageSeq) := by
  obtain ⟨r₁, hm₁, _⟩ := exists_numberedRun (show 0 < 256 ^ 2 by decide)
  obtain ⟨r₂, hm₂, _⟩ := exists_numberedRun (show 1 < 256 ^ 2 by decide)
  have h : List.Forall₂ SameButSeq r₁.messages r₂.messages := by
    rw [hm₁, hm₂]
    exact .cons (sameButSeq_numberedHello 0 1) .nil
  exact ⟨r₁, r₂, h, (hashes_cover_messageSeq .hello).1 _ _ r₁ r₂ h⟩

end ND.Proof.Framing
