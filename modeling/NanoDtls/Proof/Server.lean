import NanoDtls.Impl.Server
import NanoDtls.Proof.Client
import NanoDtls.Proof.Messages

/-!
# The server's flights

`protectMessage` succeeds exactly on a body that fits the record
(`protectMessage_eq_ok`). A server that succeeds has sent its flight with the
keys of the two hellos, has every message up to its own Finished in its
transcript, and has accepted the `verify_data` of that transcript
(`run_serverRun`).
-/

namespace ND.Proof.Server

open ND.Impl Server Handshake Hello Messages Record Sha256 Udp
open ND.Impl.Client (maxMsg parsePlaintextHandshake expectMessage sharedSecret checkFinished randomBytes)
open Spec.Client Spec.KeySchedule Proof.Handshake Proof.Transcript Proof.Client Proof.Record

variable {env : Env}

/-- The session after the hellos, from the shared secret. -/
def sessionOf (t : Transcript) (shared : BytesN 32) : Session :=
  let keys := handshakeKeys shared.1 (sha256 t.fed.flatten).1
  { transcript := t, keys := keys
    serverWrite := recordProtectionInit keys.serverWriteKey keys.serverWriteIv 2
    clientRead := recordUnprotectionInit keys.clientWriteKey keys.clientWriteIv 2 }

/-- The session after a message was protected. -/
def afterSend (s : Session) (message : Bytes) : Session :=
  { s with
    transcript := transcriptAdd s.transcript message
    serverWrite := { s.serverWrite with nextSendSequence := (s.serverWrite.nextSendSequence + 1) % 2 ^ 64 } }

@[simp] theorem keys_afterSend (s : Session) (message : Bytes) : (afterSend s message).keys = s.keys := rfl

@[simp] theorem fed_afterSend (s : Session) (message : Bytes) :
    (afterSend s message).transcript.fed = s.transcript.fed ++ [message] := rfl

/-- A message fits if its header, its body and the content type fit the inner plaintext. -/
theorem protectMessage_eq_ok {s s' : Session} {msgType : Byte} {messageSeq : Nat} {body rec : Bytes} :
    protectMessage s msgType messageSeq body = .ok (rec, s') ↔
      12 + body.length + 1 ≤ 2048 ∧ rec = sealRecord s.serverWrite 22 (Spec.Wire.handshake msgType messageSeq body) ∧
        s' = afterSend s (Spec.Wire.handshake msgType messageSeq body) := by
  by_cases hlen : 12 + body.length ≤ maxMsg
  · rw [protectMessage, wrapAndAdd_eq _ _ _ (by simp only [maxMsg] at hlen; omega) hlen, ok_bind]
    simp only [bind_eq_ok, pure_eq_ok, Prod.exists, recordProtect_eq_ok, length_handshake, Except.ok.injEq, Prod.mk.injEq]
    constructor
    · intro hx
      rcases hx with ⟨_, _, ⟨hinner, _, rfl, rfl⟩, hrec, hs⟩
      exact ⟨by omega, hrec.symm, hs.symm⟩
    · intro hx
      rcases hx with ⟨hinner, hrec, hs⟩
      exact ⟨_, _, ⟨by omega, by simp only [maxMsg]; omega, rfl, rfl⟩, hrec.symm, hs.symm⟩
  · simp only [maxMsg] at hlen
    constructor
    · -- the buffer of `wrap_and_add` is too small
      intro h
      simp only [protectMessage, wrapAndAdd, handshakeSerialize, bind_eq_ok, failIf_eq_ok] at h
      obtain ⟨_, ⟨_, ⟨_, _, _, _, _, hcap, _⟩, _⟩, _⟩ := h
      simp only [handshakeHdrLen, maxMsg] at hcap
      omega
    · intro hx
      rcases hx with ⟨hinner, _⟩
      omega

theorem run_sendMessage {s s' : Session} {msgType : Byte} {messageSeq : Nat} {body : Result Bytes} {c c' : Calls} :
    Action.run env.answer (sendMessage s msgType messageSeq body) c = (.ok s', c') ↔
      ∃ b, body = .ok b ∧ 12 + b.length + 1 ≤ 2048 ∧ env.sends c.sent = true ∧
        s' = afterSend s (Spec.Wire.handshake msgType messageSeq b) ∧ c' = { c with sent := c.sent + 1 } := by
  simp only [sendMessage, sendProtected, Action.run_bind_eq_ok, run_check_eq_ok, run_udpSend_eq_ok, run_pure_eq_ok,
    Prod.exists, protectMessage_eq_ok]
  constructor
  · intro h
    rcases h with ⟨b, _, ⟨hb, rfl⟩, _, _, _, ⟨⟨hlen, rfl, rfl⟩, rfl⟩, _, _, ⟨hsend, rfl⟩, hs, hc⟩
    exact ⟨b, hb, hlen, hsend, hs, hc⟩
  · intro h
    rcases h with ⟨b, hb, hlen, hsend, hs, hc⟩
    exact ⟨b, _, ⟨hb, rfl⟩, _, _, _, ⟨⟨hlen, rfl, rfl⟩, rfl⟩, (), _, ⟨hsend, rfl⟩, hs, hc⟩

/-! ## Certificate chains that can be sent -/

/-- A message that does not fit the inner plaintext is not sent. -/
theorem protectMessage_too_long {s : Session} {msgType : Byte} {messageSeq : Nat} {body : Bytes}
    (hbody : body.length ≤ maxMsg) (h : 2048 < 12 + body.length + 1) :
    protectMessage s msgType messageSeq body = .error .badLength := by
  simp only [maxMsg] at hbody
  by_cases hlen : 12 + body.length ≤ maxMsg
  · rw [protectMessage, wrapAndAdd_eq _ _ _ (by omega) hlen, ok_bind]
    simp only [recordProtect]
    rw [failIf_pos _ (by rw [szAdd_eq (by rw [length_handshake]; omega), length_handshake, recordProtectMaxInner]; omega)]
    rfl
  · simp only [maxMsg] at hlen
    simp only [protectMessage, wrapAndAdd, handshakeSerialize, Nat.mod_eq_of_lt (show body.length < 2 ^ 32 by omega)]
    rw [failIf_bind (by omega), failIf_bind (fun h => h rfl),
      failIf_pos _ (by simp only [handshakeHdrLen, maxMsg]; omega)]
    rfl

theorem run_sendMessage_too_long {s : Session} {msgType : Byte} {messageSeq : Nat} {body : Bytes} {c : Calls}
    (hbody : body.length ≤ maxMsg) (h : 2048 < 12 + body.length + 1) :
    Action.run env.answer (sendMessage s msgType messageSeq (.ok body)) c = (.error .badLength, c) := by
  simp only [sendMessage, sendProtected, check, Action.run_bind, Action.run_check, protectMessage_too_long hbody h]

/-- `send_protected` of a Certificate message that was serialized, when the socket sends: it succeeds if
the message with its header and the content type fits the 2048 bytes of an inner plaintext, and
otherwise returns `ND_ERR_BAD_LENGTH` and sends nothing. -/
theorem certificate_sent (env : Env) (config : ServerConfig) (s : Session) (c : Calls) (body : Bytes)
    (hbody : certificateSerialize config.certDer maxMsg = .ok body) (hsend : env.sends c.sent = true) :
    (12 + body.length + 1 ≤ 2048 → ∃ s', Action.run env.answer (sendCertificate config s) c =
      (.ok s', { c with sent := c.sent + 1 })) ∧
    (2048 < 12 + body.length + 1 → Action.run env.answer (sendCertificate config s) c = (.error .badLength, c)) := by
  constructor
  · intro hfit
    exact ⟨_, run_sendMessage.mpr ⟨body, hbody, hfit, hsend, rfl, rfl⟩⟩
  · intro hlong
    rw [sendCertificate, hbody]
    exact run_sendMessage_too_long (Proof.Messages.length_le_of_certificateSerialize (by decide) hbody) hlong

/-- A server with one certificate of a given length. -/
def configOfLength (n : Nat) : ServerConfig := ⟨[List.replicate n 0], fun _ => .error .badArg⟩

theorem certificateSerialize_configOfLength {n : Nat} (h : n + 9 ≤ maxMsg) :
    ∃ body, certificateSerialize (configOfLength n).certDer maxMsg = .ok body ∧ body.length = n + 9 := by
  have hlen : (Spec.Wire.certificate (configOfLength n).certDer).length = n + 9 := by
    rw [Proof.Messages.length_certificate, configOfLength, List.map_singleton, List.sum_singleton, List.length_replicate]
    omega
  refine ⟨_, Proof.Messages.certificateSerialize_eq (List.cons_ne_nil _ _) ?_ (by decide) (by rw [hlen]; exact h), hlen⟩
  rw [configOfLength, List.length_singleton]
  decide

/-- A chain of one certificate of 2100 bytes: the message fits every buffer of 4096 bytes with its
header, content type, tag and record header, and no server sends it. -/
theorem certificate_2100_not_sent :
    ∃ body, certificateSerialize (configOfLength 2100).certDer maxMsg = .ok body ∧ body.length + 12 + 1 + 16 + 5 ≤ maxMsg ∧
      ∀ (env : Env) (s : Session) (c : Calls),
        Action.run env.answer (sendCertificate (configOfLength 2100) s) c = (.error .badLength, c) := by
  obtain ⟨body, hbody, hlen⟩ := certificateSerialize_configOfLength (show 2100 + 9 ≤ maxMsg by decide)
  refine ⟨body, hbody, by rw [hlen]; decide, ?_⟩
  intro env s c
  rw [sendCertificate, hbody]
  exact run_sendMessage_too_long (by rw [hlen]; decide) (by rw [hlen]; decide)

/-- One of 100 bytes is sent. -/
theorem certificate_100_sent :
    ∃ (body : Bytes) (s' : Session), certificateSerialize (configOfLength 100).certDer maxMsg = .ok body ∧
      12 + body.length + 1 ≤ 2048 ∧ Action.run (Env.answer ⟨fun _ => true, fun _ => none, true⟩)
        (sendCertificate (configOfLength 100) (sessionOf transcriptInit (zeros 32))) ⟨0, 0⟩ = (.ok s', ⟨1, 0⟩) := by
  obtain ⟨body, hbody, hlen⟩ := certificateSerialize_configOfLength (show 100 + 9 ≤ maxMsg by decide)
  have hfit : 12 + body.length + 1 ≤ 2048 := by rw [hlen]; decide
  obtain ⟨s', h⟩ := (certificate_sent ⟨fun _ => true, fun _ => none, true⟩ (configOfLength 100)
    (sessionOf transcriptInit (zeros 32)) ⟨0, 0⟩ body hbody rfl).1 hfit
  exact ⟨body, s', hbody, hfit, h⟩

/-! ## What a server that succeeds has done -/

theorem startSession_eq_ok {priv : BytesN 32} {ch : HelloParams} {t : Transcript} {s : Session} :
    startSession priv ch t = .ok s ↔ Spec.X25519.x25519 priv ch.x25519PublicKey ≠ zeros 32 ∧
      s = sessionOf t (Spec.X25519.x25519 priv ch.x25519PublicKey) := by
  simp only [startSession, bind_eq_ok, sharedSecret_eq_ok, deriveHandshakeKeys_eq, transcriptSnapshot_eq, pure_eq_ok,
    Except.ok.injEq]
  constructor
  · intro h
    rcases h with ⟨_, ⟨rfl, hne⟩, _, rfl, hs⟩
    exact ⟨hne, hs.symm⟩
  · intro h
    rcases h with ⟨hne, hs⟩
    exact ⟨_, ⟨rfl, hne⟩, _, rfl, hs.symm⟩

/-- The ServerHello. -/
def serverHelloMessage (random priv : BytesN 32) : Bytes :=
  Spec.Wire.handshake 2 0 (Spec.Wire.serverHello random.1 (Spec.X25519.publicKey priv).1)

theorem serverHello_eq (random priv : BytesN 32) (t : Transcript) : serverHello random priv t =
    .ok (Spec.Wire.plaintextRecord (serverHelloMessage random priv), transcriptAdd t (serverHelloMessage random priv)) := by
  have hlen := Proof.Hello.length_serverHello random (Spec.X25519.publicKey priv)
  have hmsg : (serverHelloMessage random priv).length = 98 := by rw [serverHelloMessage, length_handshake, hlen]
  rw [serverHello, x25519Base_eq, ok_bind, Proof.Hello.serverHelloSerialize_eq, ok_bind,
    wrapAndAdd_eq _ _ _ (by rw [hlen]; decide) (by rw [hlen]; decide), ok_bind]
  simp only
  rw [show Spec.Wire.handshake hsServerHello 0 _ = serverHelloMessage random priv from rfl,
    plaintextSerialize_eq (by rw [hmsg]; decide) (by rw [hmsg]; decide)]
  rfl

theorem onClientHello_eq_ok {d : Bytes} {ch : HelloParams} {t : Transcript} : onClientHello d = .ok (ch, t) ↔
    ∃ hdr frag record, parsePlaintextHandshake d = .ok (hdr, frag, record) ∧
      (hdr.msgType = 1 ∧ hdr.fragmentOffset = 0 ∧ hdr.fragmentLength = hdr.length) ∧
      clientHelloParse frag = .ok ch ∧ t = transcriptAdd transcriptInit record := by
  simp only [onClientHello, bind_eq_ok, expectMessage_eq_ok, exists_const, Prod.exists, pure_eq_ok, Except.ok.injEq,
    Prod.mk.injEq]
  constructor
  · intro h
    rcases h with ⟨hdr, frag, record, hp, hm, _, hch, rfl, ht⟩
    exact ⟨hdr, frag, record, hp, hm, hch, ht.symm⟩
  · intro h
    rcases h with ⟨hdr, frag, record, hp, hm, hch, ht⟩
    exact ⟨hdr, frag, record, hp, hm, _, hch, rfl, ht.symm⟩

/-- After the hellos: both are in the transcript, and the keys are theirs. -/
theorem run_exchangeHellos {priv random : Option (BytesN 32)} {s : Session} {c c' : Calls}
    (h : Action.run env.answer (exchangeHellos priv random) c = (.ok s, c')) :
    ∃ ch sh shared, s.transcript.fed = [ch, sh] ∧ s.keys = handshakeKeys shared (sha256 (ch ++ sh)).1 := by
  simp only [exchangeHellos, Action.run_bind_eq_ok, run_check_eq_ok, Prod.exists, startSession_eq_ok, serverHello_eq,
    onClientHello_eq_ok, Except.ok.injEq, Prod.mk.injEq] at h
  obtain ⟨_, _, _, params, _, _, ⟨⟨_, _, ch, _, _, _, rfl⟩, _⟩, priv, _, _, random, _, _, _, _, _, ⟨⟨_, rfl⟩, _⟩, _, _, _,
    ⟨_, rfl⟩, _⟩ := h
  refine ⟨ch, serverHelloMessage random priv, (Spec.X25519.x25519 priv params.x25519PublicKey).1, rfl, ?_⟩
  simp only [sessionOf, flatten_transcriptAdd, flatten_transcriptInit, List.nil_append]

/-- After the flight: six messages are in the transcript. -/
theorem run_serverFlight {config : ServerConfig} {priv random : Option (BytesN 32)} {s : Session} {c c' : Calls}
    (h : Action.run env.answer (serverFlight config priv random) c = (.ok s, c')) :
    ∃ ch sh ee cert cv fin shared, s.transcript.fed = [ch, sh, ee, cert, cv, fin] ∧
      s.keys = handshakeKeys shared (sha256 (ch ++ sh)).1 := by
  simp only [serverFlight, Action.run_bind_eq_ok, sendEncryptedExtensions, sendCertificate, sendCertificateVerify,
    sendFinished, run_sendMessage] at h
  obtain ⟨_, _, _, _, _, hhello, _, _, ⟨ee, _, _, _, rfl, _⟩, _, _, ⟨cert, _, _, _, rfl, _⟩, _, _, ⟨cv, _, _, _, rfl, _⟩,
    fin, _, _, _, rfl, _⟩ := h
  obtain ⟨ch, sh, shared, hfed, hkeys⟩ := run_exchangeHellos hhello
  refine ⟨ch, sh, Spec.Wire.handshake 8 1 ee, Spec.Wire.handshake 11 2 cert, Spec.Wire.handshake 15 3 cv,
    Spec.Wire.handshake 20 4 fin, shared, ?_, ?_⟩
  · simp only [fed_afterSend, hfed, List.cons_append, List.nil_append]
    rfl
  · simp only [keys_afterSend, hkeys]

/-- The body that `nd_server_handshake` accepts is the `verify_data` of its own transcript. -/
theorem onFinished_eq {s : Session} {content : Bytes} {contentType : Byte} {v : BytesN 32}
    (h : onFinished s content contentType = .ok v) :
    v = verifyData s.keys.clientHandshakeTrafficSecret.1 (sha256 s.transcript.fed.flatten).1 := by
  simp only [onFinished, bind_eq_ok, failIf_eq_ok, exists_const, Prod.exists, checkFinished_eq_ok,
    transcriptSnapshot_eq] at h
  obtain ⟨_, _, _, _, _, _, _, hv⟩ := h
  exact hv

theorem run_serverRun {config : ServerConfig} {priv random : Option (BytesN 32)} {r : ServerRun}
    (h : exec env (serverRun config priv random) = .ok r) :
    (∃ ch sh ee cert cv fin shared, r.session.transcript.fed = [ch, sh, ee, cert, cv, fin] ∧
      r.session.keys = handshakeKeys shared (sha256 (ch ++ sh)).1) ∧
    r.clientVerifyData =
      verifyData r.session.keys.clientHandshakeTrafficSecret.1 (sha256 r.session.transcript.fed.flatten).1 := by
  obtain ⟨_, h⟩ := exec_eq_ok.mp h
  simp only [serverRun, Action.run_bind_eq_ok, run_check_eq_ok, run_pure_eq_ok, Prod.exists] at h
  obtain ⟨s, _, hflight, _, _, _, _, v, _, ⟨hv, _⟩, rfl, _⟩ := h
  exact ⟨run_serverFlight hflight, onFinished_eq hv⟩

end ND.Proof.Server
