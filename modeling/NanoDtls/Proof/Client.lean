import NanoDtls.Proof.Handshake
import NanoDtls.Proof.Hello
import NanoDtls.Proof.P256.Ecdsa
import NanoDtls.Proof.X25519.Ladder
import NanoDtls.Spec.Client

/-!
# The client accepts what it should

What each part of `nd_client_handshake` needs of the environment to succeed:
the sends and receives (`run_udpSend_eq_ok`, `run_udpRecv_eq_ok`), the loop
that sends the ClientHello (`run_helloLoop`), the messages of the server one
by one. Chained, they are the conditions of `Acceptance`
(`client_accepts_iff`).
-/

namespace ND.Proof.Client

open ND.Impl Client Handshake Hello Messages Record Sha256 Udp X509
open Spec.Client Spec.KeySchedule Proof.Handshake Proof.Transcript

variable {env : Env} {random priv : BytesN 32} {trustAnchor : X509Cert} {atTime : Nat}

/-! ## Sends and receives -/

theorem exec_eq_ok {α : Type} {x : Io α} {a : α} :
    exec env x = .ok a ↔ ∃ c, Action.run env.answer x ⟨0, 0⟩ = (.ok a, c) := by
  rw [exec]
  generalize Action.run env.answer x ⟨0, 0⟩ = r
  constructor
  · intro h
    exact ⟨r.2, Prod.ext h rfl⟩
  · intro hx
    rcases hx with ⟨_, h⟩
    rw [h]

theorem run_check_eq_ok {α : Type} {x : Result α} {a : α} {c c' : Calls} :
    Action.run env.answer (check x) c = (.ok a, c') ↔ x = .ok a ∧ c' = c := by
  rw [check, Action.run_check, Prod.mk.injEq, eq_comm (a := c)]

theorem run_pure_eq_ok {α : Type} {a b : α} {c c' : Calls} :
    Action.run env.answer (pure a : Io α) c = (.ok b, c') ↔ b = a ∧ c' = c := by
  rw [Action.run_pure, Prod.mk.injEq, Except.ok.injEq, eq_comm (a := a), eq_comm (a := c)]

theorem run_udpSend (env : Env) (data : Bytes) (c : Calls) : Action.run env.answer (udpSend data) c =
    (if env.sends c.sent then .ok () else .error .badLength, { c with sent := c.sent + 1 }) := by
  simp only [udpSend, send, check, Action.run_bind, Action.run_call, Action.run_check, Env.answer]
  cases env.sends c.sent <;> rfl

theorem run_udpSend_eq_ok {data : Bytes} {c c' : Calls} {u : Unit} :
    Action.run env.answer (udpSend data) c = (.ok u, c') ↔
      env.sends c.sent = true ∧ c' = { c with sent := c.sent + 1 } := by
  rw [run_udpSend, Prod.mk.injEq, eq_comm (a := c')]
  cases env.sends c.sent <;> simp

theorem run_udpRecv (env : Env) (c : Calls) : Action.run env.answer (udpRecv maxMsg) c =
    ((match received env c.received with | none => .error .truncated | some d => .ok d),
      { c with received := c.received + 1 }) := by
  simp only [udpRecv, recv, Action.run_bind, Action.run_call, Env.answer, received]
  cases env.recvs c.received <;> rfl

theorem run_udpRecv_eq_ok {c c' : Calls} {d : Bytes} :
    Action.run env.answer (udpRecv maxMsg) c = (.ok d, c') ↔
      received env c.received = some d ∧ c' = { c with received := c.received + 1 } := by
  rw [run_udpRecv, Prod.mk.injEq, eq_comm (a := c')]
  cases received env c.received <;> simp

theorem outcome_eq {α : Type} {r : Result α} (h : Avoids Status.ub r) : outcome r = .ok r := by
  unfold outcome
  split
  · exact absurd rfl h
  · rfl

theorem run_attempt {α : Type} {x : Io α} {c c' : Calls} {r : Result α} (h : Action.run env.answer x c = (r, c'))
    (hr : Avoids Status.ub r) : Action.run env.answer (attempt x) c = (.ok r, c') := by
  have hrun := Prog.run_bind env.answer (fun r : Result α => Prog.ret (outcome r)) (ExceptT.run x) c
  rw [show Prog.run env.answer (ExceptT.run x) c = (r, c') from h, outcome_eq hr] at hrun
  exact hrun

/-! ## The ClientHello -/

theorem receivesBefore_succ (i : Nat) :
    receivesBefore env (i + 1) = receivesBefore env i + if env.sends i = true then 1 else 0 := Nat.count_succ _ i

/-- Attempt `i` is answered with a reply. -/
def Answered (env : Env) (i : Nat) (reply : HandshakeHdr × Bytes × Bytes) : Prop :=
  env.sends i = true ∧ ∃ d, received env (receivesBefore env i) = some d ∧ parsePlaintextHandshake d = .ok reply

/-- Where the socket is before attempt `i`. -/
def callsBefore (env : Env) (i : Nat) : Calls := ⟨i, receivesBefore env i⟩

theorem run_recvPlaintextHandshake (env : Env) (c : Calls) : Action.run env.answer recvPlaintextHandshake c =
    ((match received env c.received with | none => .error .truncated | some d => parsePlaintextHandshake d),
      { c with received := c.received + 1 }) := by
  simp only [recvPlaintextHandshake, check, Action.run_bind, Action.run_check, run_udpRecv]
  cases received env c.received <;> rfl

/-- One attempt: it is answered, or the next one follows. -/
theorem run_helloLoop_succ (ch : Bytes) (n : Nat) (st : Status) (i : Nat) :
    (∃ reply, Answered env i reply ∧
      Action.run env.answer (helloLoop ch (n + 1) st) (callsBefore env i) = (.ok reply, callsBefore env (i + 1))) ∨
    ((∀ reply, ¬ Answered env i reply) ∧ ∃ st', Action.run env.answer (helloLoop ch (n + 1) st) (callsBefore env i) =
      Action.run env.answer (helloLoop ch n st') (callsBefore env (i + 1))) := by
  have hsend := run_udpSend env ch ⟨i, receivesBefore env i⟩
  simp only [callsBefore, receivesBefore_succ]
  rw [helloLoop]
  by_cases hs : env.sends i = true
  · rw [if_pos hs] at hsend ⊢
    rw [Action.run_bind_ok _ (run_attempt hsend (avoids_ok _))]
    simp only
    have hrecv := run_recvPlaintextHandshake env ⟨i + 1, receivesBefore env i⟩
    cases hd : received env (receivesBefore env i) with
    | none =>
      simp only [hd] at hrecv
      rw [Action.run_bind_ok _ (run_attempt hrecv (avoids_error (by decide)))]
      refine .inr ⟨?_, _, rfl⟩
      intro reply hx
      rcases hx with ⟨_, d, hd', _⟩
      rw [hd] at hd'
      cases hd'
    | some d =>
      simp only [hd] at hrecv
      rw [Action.run_bind_ok _ (run_attempt hrecv (parsePlaintextHandshake_defined d))]
      cases hp : parsePlaintextHandshake d with
      | error st' =>
        refine .inr ⟨?_, _, rfl⟩
        intro reply hx
        rcases hx with ⟨_, d', hd', hp'⟩
        rw [hd] at hd'
        cases hd'
        rw [hp] at hp'
        cases hp'
      | ok reply => exact .inl ⟨reply, ⟨hs, d, hd, hp⟩, rfl⟩
  · rw [if_neg hs] at hsend ⊢
    rw [Action.run_bind_ok _ (run_attempt hsend (avoids_error (by decide)))]
    exact .inr ⟨fun reply h => hs h.1, _, rfl⟩

/-- The loop from attempt `k` on returns the first reply to one of the next `n` attempts. -/
theorem run_helloLoop (ch : Bytes) {reply : HandshakeHdr × Bytes × Bytes} {c' : Calls} : ∀ (n : Nat) (st : Status) (k : Nat),
    Action.run env.answer (helloLoop ch n st) (callsBefore env k) = (.ok reply, c') ↔
      ∃ i, (k ≤ i ∧ i < k + n) ∧ Answered env i reply ∧ (∀ j, k ≤ j → j < i → ∀ r, ¬ Answered env j r) ∧
        c' = callsBefore env (i + 1)
  | 0, st, k => by
    rw [helloLoop, Action.run_throw, Prod.mk.injEq]
    constructor
    · intro hx
      rcases hx with ⟨h, _⟩
      cases h
    · intro hx
      rcases hx with ⟨i, hi, _⟩
      omega
  | n + 1, st, k => by
    rcases run_helloLoop_succ ch n st k with ⟨r, hr, hrun⟩ | ⟨hnone, st', hrun⟩
    · rw [hrun, Prod.mk.injEq, Except.ok.injEq]
      constructor
      · intro hx
        rcases hx with ⟨hreply, hc⟩
        exact ⟨k, ⟨Nat.le_refl k, by omega⟩, hreply ▸ hr, fun j hj hj' => absurd hj (by omega), hc.symm⟩
      · intro hx
        rcases hx with ⟨i, hi, ha, hfirst, hc⟩
        -- the first reply is at the first attempt
        have hik : i = k := by
          by_contra hne
          exact hfirst k (Nat.le_refl k) (by omega) r hr
        subst hik
        obtain ⟨_, d, hd, hp⟩ := ha
        obtain ⟨_, d', hd', hp'⟩ := hr
        rw [hd] at hd'
        cases hd'
        rw [hp] at hp'
        exact ⟨(Except.ok.inj hp').symm, hc.symm⟩
    · rw [hrun, run_helloLoop ch n st' (k + 1)]
      constructor
      · intro hx
        rcases hx with ⟨i, hi, ha, hfirst, hc⟩
        refine ⟨i, by omega, ha, ?_, hc⟩
        intro j hj hji r
        by_cases hjk : j = k
        · exact hjk ▸ hnone r
        · exact hfirst j (by omega) hji r
      · intro hx
        rcases hx with ⟨i, hi, ha, hfirst, hc⟩
        have hik : i ≠ k := fun h => hnone reply (h ▸ ha)
        exact ⟨i, by omega, ha, fun j hj => hfirst j (by omega), hc⟩

/-! ## The ServerHello -/

theorem parsePlaintextHandshake_eq_ok {d frag record : Bytes} {hdr : HandshakeHdr} :
    parsePlaintextHandshake d = .ok (hdr, frag, record) ↔
      ∃ phdr body, plaintextParse d = .ok (phdr, record) ∧ phdr.type = 22 ∧
        handshakeParse record = .ok (hdr, body) ∧ frag = body.bytes := by
  simp only [parsePlaintextHandshake, bind_eq_ok, failIf_eq_ok, exists_const, pure_eq_ok, Except.ok.injEq, Prod.mk.injEq,
    not_not, Prod.exists]
  simp only [ctHandshake]
  constructor
  · intro h
    rcases h with ⟨phdr, _, hp, ht, _, body, hh, rfl, hfrag, rfl⟩
    exact ⟨phdr, body, hp, ht, hh, hfrag.symm⟩
  · intro h
    rcases h with ⟨phdr, body, hp, ht, hh, hfrag⟩
    exact ⟨phdr, record, hp, ht, hdr, body, hh, rfl, hfrag.symm, rfl⟩

theorem isReply_iff {d record : Bytes} :
    IsReply d record ↔ ∃ hdr frag, parsePlaintextHandshake d = .ok (hdr, frag, record) := by
  simp only [parsePlaintextHandshake_eq_ok]
  constructor
  · intro h
    rcases h with ⟨phdr, hdr, hp, ht, body, hh⟩
    exact ⟨hdr, body.bytes, phdr, body, hp, ht, hh, rfl⟩
  · intro h
    rcases h with ⟨hdr, _, phdr, body, hp, ht, hh, _⟩
    exact ⟨phdr, hdr, hp, ht, body, hh⟩

theorem all_beq_zero {b : BytesN 32} : b.1.all (· == 0) = true ↔ b = zeros 32 := by
  rw [List.all_eq_true]
  constructor
  · intro h
    apply Subtype.ext
    exact List.eq_replicate_iff.mpr ⟨b.2, fun x hx => by simpa using h x hx⟩
  · intro h x hx
    rw [h] at hx
    simpa using List.eq_of_mem_replicate hx

theorem sharedSecret_eq_ok {priv peer shared : BytesN 32} : sharedSecret priv peer = .ok shared ↔
    shared = Spec.X25519.x25519 priv peer ∧ Spec.X25519.x25519 priv peer ≠ zeros 32 := by
  rw [sharedSecret, Proof.X25519.scalarmult_eq, ok_bind, failIf_bind_eq_ok, all_beq_zero, pure_eq_ok, Except.ok.injEq,
    eq_comm (a := shared)]
  exact and_comm

/-- The session after a ServerHello, from the shared secret. -/
def sessionOf (t : Transcript) (shared : BytesN 32) : Session :=
  let keys := handshakeKeys shared.1 (sha256 t.fed.flatten).1
  { transcript := t, keys := keys
    serverRead := recordUnprotectionInit keys.serverWriteKey keys.serverWriteIv 2
    clientWrite := recordProtectionInit keys.clientWriteKey keys.clientWriteIv 2, plaintext := [] }

theorem sessionOf_keys (t : Transcript) (shared : BytesN 32) :
    (sessionOf t shared).keys = handshakeKeys shared.1 (sha256 t.fed.flatten).1 := rfl

/-- The transcript of the hellos. -/
theorem flatten_sessionOf (ch sh : Bytes) (shared : BytesN 32) :
    (sessionOf (transcriptAdd (transcriptAdd transcriptInit ch) sh) shared).transcript.fed.flatten = ch ++ sh :=
  flatten_hellos ch sh

theorem sessionOf_serverRead (t : Transcript) (shared : BytesN 32) : (sessionOf t shared).serverRead =
    recordUnprotectionInit (sessionOf t shared).keys.serverWriteKey (sessionOf t shared).keys.serverWriteIv 2 := rfl

theorem onServerHello_eq_ok {priv : BytesN 32} {t : Transcript} {hdr : HandshakeHdr} {frag record : Bytes} {s : Session} :
    onServerHello priv t (hdr, frag, record) = .ok s ↔
      (hdr.msgType = 2 ∧ hdr.fragmentOffset = 0 ∧ hdr.fragmentLength = hdr.length) ∧
      ∃ sh, serverHelloParse frag = .ok sh ∧ sh.cipherSuite = 0x1303 ∧
        Spec.X25519.x25519 priv sh.keyShare ≠ zeros 32 ∧
        s = sessionOf (transcriptAdd t record) (Spec.X25519.x25519 priv sh.keyShare) := by
  simp only [onServerHello, bind_eq_ok, failIf_eq_ok, exists_const, expectMessage_eq_ok, sharedSecret_eq_ok,
    deriveHandshakeKeys_eq, transcriptSnapshot_eq, pure_eq_ok, Except.ok.injEq, not_not]
  simp only [cipherSuite, hsServerHello]
  constructor
  · intro h
    rcases h with ⟨hm, sh, hp, hsuite, _, ⟨rfl, hne⟩, _, rfl, hs⟩
    exact ⟨hm, sh, hp, hsuite, hne, hs.symm⟩
  · intro h
    rcases h with ⟨hm, sh, hp, hsuite, hne, hs⟩
    exact ⟨hm, sh, hp, hsuite, _, ⟨rfl, hne⟩, _, rfl, hs.symm⟩

/-! ## The protected messages -/

theorem openHandshake_eq_ok {u u' : RecordUnprotection} {d content : Bytes} {hdr : HandshakeHdr} {body : Span} :
    openHandshake u d = .ok (content, hdr, body, u') ↔
      recordUnprotect u d 4096 = .ok (content, 22, u') ∧ handshakeParse content = .ok (hdr, body) := by
  simp only [openHandshake, bind_eq_ok, failIf_eq_ok, exists_const, pure_eq_ok, Except.ok.injEq, Prod.mk.injEq, not_not,
    Prod.exists]
  simp only [ctHandshake, maxMsg]
  constructor
  · intro h
    rcases h with ⟨_, _, _, hu, rfl, _, _, hh, rfl, rfl, rfl, rfl⟩
    exact ⟨hu, hh⟩
  · intro h
    rcases h with ⟨hu, hh⟩
    exact ⟨content, 22, u', hu, rfl, hdr, body, hh, rfl, rfl, rfl, rfl⟩

/-- The session after a message: its record was unprotected, and it was added to the transcript. -/
def afterMessage (s : Session) (u : RecordUnprotection) (content : Bytes) : Session :=
  { s with serverRead := u, plaintext := overwrite content s.plaintext, transcript := transcriptAdd s.transcript content }

theorem afterMessage_keys (s : Session) (u : RecordUnprotection) (content : Bytes) :
    (afterMessage s u content).keys = s.keys := rfl

theorem flatten_afterMessage (s : Session) (u : RecordUnprotection) (content : Bytes) :
    (afterMessage s u content).transcript.fed.flatten = s.transcript.fed.flatten ++ content := flatten_transcriptAdd _ _

/-- The next datagram is the record of a message, from `s` to `s'`. -/
structure Receives (env : Env) (msgType : Byte) (s : Session) (c : Calls) (content : Bytes) (body : Span)
    (u : RecordUnprotection) (s' : Session) (c' : Calls) : Prop where
  opens : Opens env c.received s.serverRead content u
  message : Unfragmented msgType content body
  session : s' = afterMessage s u content
  calls : c' = { c with received := c.received + 1 }

theorem run_recvMessage {α : Type} {s s' : Session} {msgType : Byte} {c c' : Calls} {accept : Span → Result α} {a : α} :
    Action.run env.answer (recvMessage s msgType accept) c = (.ok (a, s'), c') ↔
      ∃ content body u, Receives env msgType s c content body u s' c' ∧ accept body = .ok a := by
  simp only [recvMessage, Action.run_bind_eq_ok, run_udpRecv_eq_ok, run_check_eq_ok, run_pure_eq_ok, Prod.exists,
    openHandshake_eq_ok, expectMessage_eq_ok, Prod.mk.injEq]
  constructor
  · intro h
    rcases h with ⟨d, _, ⟨hd, rfl⟩, content, hdr, body, u, _, ⟨⟨hu, hh⟩, rfl⟩, _, _, ⟨hm, rfl⟩, _, _, ⟨ha, rfl⟩, ⟨rfl, hs⟩, hc⟩
    exact ⟨content, body, u, ⟨⟨d, hd, hu⟩, ⟨hdr, hh, hm⟩, hs, hc⟩, ha⟩
  · intro h
    rcases h with ⟨content, body, u, ⟨⟨d, hd, hu⟩, ⟨hdr, hh, hm⟩, hs, hc⟩, ha⟩
    exact ⟨d, _, ⟨hd, rfl⟩, content, hdr, body, u, _, ⟨⟨hu, hh⟩, rfl⟩, (), _, ⟨hm, rfl⟩, a, _, ⟨ha, rfl⟩, ⟨rfl, hs⟩, hc⟩

theorem checkCertificate_eq_ok {trustAnchor leaf : X509Cert} {atTime : Nat} {body : Span} :
    checkCertificate trustAnchor atTime body = .ok leaf ↔
      ∃ ders issuers, certificateParse body.bytes = .ok ders ∧
        List.Forall₂ (fun der c => ∃ parsed, x509Parse 64 der.bytes = .ok parsed ∧
          c = X509Cert.shift (body.off + der.off) parsed) ders (leaf :: issuers) ∧
        x509VerifyChain (leaf :: issuers) trustAnchor atTime = .ok () := by
  simp only [checkCertificate, bind_eq_ok, mapM_eq_ok, map_eq_ok, eq_comm (b := X509Cert.shift _ _)]
  constructor
  · intro h
    rcases h with ⟨ders, hp, chain, hparse, _, hverify, hleaf⟩
    match chain with
    | [] => cases hleaf
    | _ :: issuers =>
      cases hleaf
      exact ⟨ders, issuers, hp, hparse, hverify⟩
  · intro h
    rcases h with ⟨ders, issuers, hp, hparse, hverify⟩
    exact ⟨ders, hp, leaf :: issuers, hparse, (), hverify, rfl⟩

theorem certificateVerifyContent_eq (hash : BytesN 32) :
    certificateVerifyContent certVerifyContextServer hash certVerifyContentMax = .ok (signedContent hash) := by
  rw [certificateVerifyContent, failIf_bind (by decide)]
  rfl

theorem checkCertificateVerify_eq_ok {hash : BytesN 32} {leaf : X509Cert} {body : Span} {u : Unit} :
    checkCertificateVerify hash leaf body = .ok u ↔
      ∃ cvMsg r s, certificateVerifyParse body.bytes = .ok cvMsg ∧ cvMsg.algorithm = 0x0403 ∧
        Asn1.readEcdsaSigValue 64 cvMsg.signature = .ok (r, s) ∧
        Spec.Ecdsa.Verifies (beNat leaf.pubkeyQx.1) (beNat leaf.pubkeyQy.1) (beNat (sha256 (signedContent hash)).1)
          (beNat r.1) (beNat s.1) := by
  simp only [checkCertificateVerify, certificateVerifyCheck, bind_eq_ok, failIf_eq_ok, exists_const, not_not,
    certificateVerifyContent_eq, ok_bind, Prod.exists, (Proof.P256.ecdsaVerify_decides _ _ _ _ _).ok_iff]
  simp only [sigschemeEcdsaSecp256r1Sha256]
  constructor
  · intro h
    rcases h with ⟨cvMsg, hp, halg, r, s, hsig, hv⟩
    exact ⟨cvMsg, r, s, hp, halg, hsig, hv⟩
  · intro h
    rcases h with ⟨cvMsg, r, s, hp, halg, hsig, hv⟩
    exact ⟨cvMsg, hp, halg, r, s, hsig, hv⟩

/-! ## The whole handshake -/

theorem x25519Base_eq (priv : BytesN 32) : X25519.x25519Base priv = .ok (Spec.X25519.publicKey priv) :=
  Proof.X25519.scalarmult_eq priv _

theorem clientHello_eq (random priv : BytesN 32) : clientHello random priv =
    .ok (Spec.Wire.plaintextRecord (clientHelloMessage random priv),
      transcriptAdd transcriptInit (clientHelloMessage random priv)) := by
  have hlen := Proof.Hello.length_clientHello random (Spec.X25519.publicKey priv)
  have hmsg : (clientHelloMessage random priv).length = 125 := by rw [clientHelloMessage, length_handshake, hlen]
  rw [clientHello, x25519Base_eq, ok_bind, Proof.Hello.clientHelloSerialize_eq, ok_bind,
    wrapAndAdd_eq _ _ _ (by rw [hlen]; decide) (by rw [hlen]; decide), ok_bind]
  simp only
  rw [show Spec.Wire.handshake hsClientHello 0 _ = clientHelloMessage random priv from rfl,
    plaintextSerialize_eq (by rw [hmsg]; decide) (by rw [hmsg]; decide)]
  rfl

/-- The hellos: the first reply is a ServerHello that is accepted. -/
theorem run_exchangeHellos {s : Session} {c' : Calls} :
    Action.run env.answer (exchangeHellos random priv) ⟨0, 0⟩ = (.ok s, c') ↔
      ∃ i sh body hello, FirstReply env i sh ∧ Unfragmented 2 sh body ∧ serverHelloParse body.bytes = .ok hello ∧
        hello.cipherSuite = 0x1303 ∧ Spec.X25519.x25519 priv hello.keyShare ≠ zeros 32 ∧
        s = sessionOf (transcriptAdd (transcriptAdd transcriptInit (clientHelloMessage random priv)) sh)
          (Spec.X25519.x25519 priv hello.keyShare) ∧
        c' = ⟨i + 1, receivesBefore env i + 1⟩ := by
  have hloop : ∀ ch {reply c'}, Action.run env.answer (helloLoop ch clientHelloMaxAttempts .truncated) ⟨0, 0⟩ =
      (.ok reply, c') ↔ _ := fun ch => run_helloLoop ch 5 .truncated 0
  have hcalls : ∀ i, env.sends i = true → callsBefore env (i + 1) = ⟨i + 1, receivesBefore env i + 1⟩ := by
    intro i hs
    rw [callsBefore, receivesBefore_succ, if_pos hs]
  simp only [exchangeHellos, clientHello_eq, Action.run_bind_eq_ok, run_check_eq_ok, Prod.exists, Except.ok.injEq,
    Prod.mk.injEq, onServerHello_eq_ok]
  constructor
  · intro h
    rcases h with ⟨_, _, _, ⟨⟨rfl, rfl⟩, rfl⟩, hdr, frag, sh, _, hrun, ⟨hm, hello, hp, hsuite, hne, hs⟩, hc⟩
    obtain ⟨i, hi, ⟨hsent, d, hd, hparse⟩, hfirst, hc'⟩ := (hloop _).mp hrun
    obtain ⟨_, body, _, _, hh, hfrag⟩ := parsePlaintextHandshake_eq_ok.mp hparse
    refine ⟨i, sh, body, hello, ⟨by omega, hsent, ⟨d, hd, isReply_iff.mpr ⟨_, _, hparse⟩⟩, ?_⟩, ⟨hdr, hh, hm⟩,
      hfrag ▸ hp, hsuite, hne, hs, by rw [hc, hc', hcalls i hsent]⟩
    intro j hj hsj d' hd' r hr
    obtain ⟨_, _, hr⟩ := isReply_iff.mp hr
    exact hfirst j (Nat.zero_le j) hj _ ⟨hsj, d', hd', hr⟩
  · intro h
    rcases h with ⟨i, sh, body, hello, hreply, ⟨hdr, hh, hm⟩, hp, hsuite, hne, hs, hc⟩
    obtain ⟨d, hd, hr⟩ := hreply.reply
    obtain ⟨phdr, _, hpp, ht, _, _⟩ := hr
    refine ⟨_, _, _, ⟨⟨rfl, rfl⟩, rfl⟩, hdr, body.bytes, sh, ⟨i + 1, receivesBefore env i + 1⟩, ?_,
      ⟨hm, hello, hp, hsuite, hne, hs⟩, hc⟩
    refine (hloop _).mpr ⟨i, by have := hreply.bound; omega, ⟨hreply.sent, d, hd, ?_⟩, ?_, (hcalls i hreply.sent).symm⟩
    · exact parsePlaintextHandshake_eq_ok.mpr ⟨phdr, body, hpp, ht, hh, rfl⟩
    · intro j _ hj r h
      rcases h with ⟨hsj, d', hd', hr⟩
      exact hreply.first j hj hsj d' hd' _ (isReply_iff.mpr ⟨_, _, hr⟩)

/-- The `verify_data` of the client's Finished. -/
def clientVerifyData (s : Session) : BytesN 32 :=
  verifyData s.keys.clientHandshakeTrafficSecret.1 (sha256 s.transcript.fed.flatten).1

theorem clientFinished_eq (s : Session) : clientFinished s = .ok (clientVerifyData s,
    Proof.Record.sealRecord s.clientWrite 22 (Spec.Wire.handshake 20 1 (clientVerifyData s).1)) := by
  have hlen := (clientVerifyData s).2
  rw [clientFinished, transcriptSnapshot_eq, finishedCompute_eq, ok_bind, ← clientVerifyData,
    wrapAndAdd_eq _ _ _ (by rw [hlen]; decide) (by rw [hlen]; decide), ok_bind]
  simp only
  rw [Proof.Record.recordProtect_eq_ok.mpr ⟨by rw [length_handshake, hlen]; decide,
    by rw [length_handshake, hlen]; decide, rfl, rfl⟩]
  rfl

/-- The session of a run that is accepted, after the server's Finished. -/
def sessionAfter (a : Acceptance env random priv trustAnchor atTime) : Session :=
  let t := transcriptAdd (transcriptAdd transcriptInit (clientHelloMessage random priv)) a.sh
  let s := sessionOf t (Spec.X25519.x25519 priv a.hello.keyShare)
  afterMessage (afterMessage (afterMessage (afterMessage s a.u₁ a.ee) a.u₂ a.cert) a.u₃ a.cv) a.u₄ a.fin

theorem fed_sessionAfter (a : Acceptance env random priv trustAnchor atTime) :
    (sessionAfter a).transcript.fed = [clientHelloMessage random priv, a.sh, a.ee, a.cert, a.cv, a.fin] := rfl

theorem keys_sessionAfter (a : Acceptance env random priv trustAnchor atTime) : (sessionAfter a).keys = a.keys := by
  rw [a.keys_eq, ← flatten_hellos]
  rfl

/-- What the handshake has before its last send, in a run that is accepted. -/
def flightOf (a : Acceptance env random priv trustAnchor atTime) : ClientFlight :=
  let s := sessionAfter a
  { session := s, leaf := a.leaf, verifyData := clientVerifyData s
    record := Proof.Record.sealRecord s.clientWrite 22 (Spec.Wire.handshake 20 1 (clientVerifyData s).1) }

/-- The handshake comes to its last send exactly in the runs that are accepted. -/
theorem run_clientFlight {f : ClientFlight} {c' : Calls} :
    Action.run env.answer (clientFlight (some random) (some priv) trustAnchor atTime) ⟨0, 0⟩ = (.ok f, c') ↔
      ∃ a : Acceptance env random priv trustAnchor atTime, f = flightOf a ∧
        c' = ⟨a.attempt + 1, receivesBefore env a.attempt + 5⟩ := by
  simp only [clientFlight, randomBytes, Action.run_bind_eq_ok, run_check_eq_ok, run_pure_eq_ok, Prod.exists,
    Except.ok.injEq, Prod.mk.injEq, recvEncryptedExtensions, recvCertificate, recvCertificateVerify,
    recvFinished, run_recvMessage, clientFinished_eq, checkCertificate_eq_ok, checkCertificateVerify_eq_ok,
    checkFinished_eq_ok, transcriptSnapshot_eq]
  constructor
  · intro h
    obtain ⟨_, _, ⟨rfl, rfl⟩, h⟩ := h
    obtain ⟨_, _, ⟨rfl, rfl⟩, h⟩ := h
    obtain ⟨_, _, hhello, h⟩ := h
    obtain ⟨_, _, _, ⟨ee, eeBody, u₁, hee, heeParse⟩, h⟩ := h
    obtain ⟨leaf, _, _, ⟨cert, certBody, u₂, hcert, ders, issuers, hders, hchain, hverify⟩, h⟩ := h
    obtain ⟨_, _, _, ⟨cv, cvBody, u₃, hcv, cvMsg, r, s, hcvMsg, halg, hsig, hsigned⟩, h⟩ := h
    obtain ⟨_, _, _, ⟨fin, finBody, u₄, hfin, hbody, hdata⟩, h⟩ := h
    obtain ⟨_, _, _, ⟨⟨rfl, rfl⟩, rfl⟩, hf, hc⟩ := h
    obtain ⟨i, sh, body, hello, hreply, hmessage, hparse, hsuite, hne, rfl, rfl⟩ := run_exchangeHellos.mp hhello
    obtain ⟨hee, heeM, rfl, rfl⟩ := hee
    obtain ⟨hcert, hcertM, rfl, rfl⟩ := hcert
    obtain ⟨hcv, hcvM, rfl, rfl⟩ := hcv
    obtain ⟨hfin, hfinM, rfl, rfl⟩ := hfin
    refine ⟨{ attempt := i, sh := sh, ee := ee, cert := cert, cv := cv, fin := fin, reply := hreply, shBody := body,
              sh_message := hmessage, hello := hello, sh_parse := hparse, suite := hsuite, shared_ne := hne, keys := _,
              keys_eq := rfl, u₁ := u₁, u₂ := u₂, u₃ := u₃, u₄ := u₄, ee_opens := ?_, cert_opens := hcert,
              cv_opens := hcv, fin_opens := hfin, eeBody := eeBody, certBody := certBody, cvBody := cvBody,
              finBody := finBody, ee_message := heeM, cert_message := hcertM, cv_message := hcvM, fin_message := hfinM,
              ee_parse := heeParse, ders := ders, cert_parse := hders, leaf := leaf, issuers := issuers,
              chain_parse := hchain, chain_verify := hverify, cvMsg := cvMsg, cv_parse := hcvMsg, algorithm := halg,
              r := r, s := s, signature_parse := hsig, signature := ?_, finished := ?_ }, hf, hc⟩
    · rwa [sessionOf_serverRead, sessionOf_keys, flatten_hellos] at hee
    · rwa [flatten_afterMessage, flatten_afterMessage, flatten_sessionOf] at hsigned
    · rw [hbody, hdata]
      simp only [afterMessage_keys, sessionOf_keys, flatten_afterMessage, flatten_sessionOf, flatten_hellos]
  · intro h
    rcases h with ⟨a, hf, hc⟩
    refine ⟨_, _, ⟨rfl, rfl⟩, _, _, ⟨rfl, rfl⟩, _, _, run_exchangeHellos.mpr ⟨a.attempt, a.sh, a.shBody, a.hello, a.reply,
      a.sh_message, a.sh_parse, a.suite, a.shared_ne, rfl, rfl⟩, (), _, _,
      ⟨a.ee, a.eeBody, a.u₁, ⟨?_, a.ee_message, rfl, rfl⟩, a.ee_parse⟩, a.leaf, _, _,
      ⟨a.cert, a.certBody, a.u₂, ⟨a.cert_opens, a.cert_message, rfl, rfl⟩, a.ders, a.issuers, a.cert_parse, a.chain_parse,
        a.chain_verify⟩, (), _, _,
      ⟨a.cv, a.cvBody, a.u₃, ⟨a.cv_opens, a.cv_message, rfl, rfl⟩, a.cvMsg, a.r, a.s, a.cv_parse, a.algorithm,
        a.signature_parse, ?_⟩, _, _, _,
      ⟨a.fin, a.finBody, a.u₄, ⟨a.fin_opens, a.fin_message, rfl, rfl⟩, ?_, rfl⟩, _, _, _, ⟨⟨rfl, rfl⟩, rfl⟩, hf, hc⟩
    · rw [sessionOf_serverRead, sessionOf_keys, flatten_hellos, ← a.keys_eq]
      exact a.ee_opens
    · rw [flatten_afterMessage, flatten_afterMessage, flatten_sessionOf]
      exact a.signature
    · simp only [afterMessage_keys, sessionOf_keys, flatten_afterMessage, flatten_sessionOf, flatten_hellos, ← a.keys_eq]
      exact a.finished

/-- For every environment: `nd_client_handshake` with random values succeeds iff the run is accepted
and the send of the client's Finished succeeds. -/
theorem client_accepts_iff (env : Env) (random priv : BytesN 32) (trustAnchor : X509Cert) (atTime : Nat) :
    (∃ result, exec env (clientHandshake (some random) (some priv) trustAnchor atTime) = .ok result) ↔
      ∃ a : Acceptance env random priv trustAnchor atTime, env.sends (a.attempt + 1) = true := by
  simp only [exec_eq_ok]
  simp only [clientHandshake, Action.run_bind_eq_ok, run_clientFlight, run_udpSend_eq_ok, run_pure_eq_ok]
  constructor
  · intro h
    rcases h with ⟨_, _, _, _, ⟨a, _, rfl⟩, _, _, ⟨hsend, _⟩, _⟩
    exact ⟨a, hsend⟩
  · intro h
    rcases h with ⟨a, hsend⟩
    exact ⟨_, _, _, _, ⟨a, rfl, rfl⟩, (), _, ⟨hsend, rfl⟩, rfl, rfl⟩

end ND.Proof.Client
