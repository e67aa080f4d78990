import NanoDtls.Proof.Conduct.Calls

/-!
# What a server does on the network

The system calls of `nd_server_handshake`, over all answers of the environment.
It is silent until it has received a ClientHello that it accepts. Then it sends
its flight, one record for each message and each record under a number of its
own, and stops at the first send that fails. After the flight it waits for the
Finished of the client, for at most eight datagrams (`server_conduct`).
-/

namespace ND.Proof.Conduct

open ND.Impl Handshake Hello Messages Record Udp Server
open ND.Impl.Client (maxMsg parsePlaintextHandshake randomBytes)
open Sha256 (sha256)
open Prog (Yields)
open ND.Action (Meets)
open Proof.Defined Proof.Record Proof.Honest
open Spec.KeySchedule (handshakeKeys)

/-! ## The flight -/

/-- A ClientHello that a server with these values answers, in the datagram `d`. -/
structure Hello (priv random : BytesN 32) (d : Bytes) where
  params : HelloParams
  transcript : Transcript
  accepted : onClientHello (d.take maxMsg) = .ok (params, transcript)
  shared_ne : Spec.X25519.x25519 priv params.x25519PublicKey ≠ zeros 32

section Hello

variable {config : ServerConfig} {priv random : BytesN 32} {d : Bytes}

/-- The bytes of the two hellos. -/
def Hello.hellos (h : Hello priv random d) : Bytes := h.transcript.fed.flatten ++ Server.serverHelloMessage random priv

/-- The keys that the server derives from the hellos. -/
def Hello.keys (h : Hello priv random d) : HandshakeKeys :=
  handshakeKeys (Spec.X25519.x25519 priv h.params.x25519PublicKey).1 (sha256 h.hellos).1

/-- The types of the server's protected messages. -/
def messageType : Nat → Byte
  | 0 => hsEncryptedExtensions
  | 1 => hsCertificate
  | 2 => hsCertificateVerify
  | _ => hsFinished

/-- The bodies of the server's protected messages, given the hash of the transcript before them. -/
def messageBody (config : ServerConfig) (keys : HandshakeKeys) (hash : BytesN 32) : Nat → Result Bytes
  | 0 => encryptedExtensionsSerialize 2
  | 1 => certificateSerialize config.certDer maxMsg
  | 2 => certificateVerifyBody config hash
  | _ => (·.1) <$> finishedCompute hkdfLabelPreDtls13 keys.serverHandshakeTrafficSecret hash

/-- The first messages of the server's protected flight. -/
inductive Flight (config : ServerConfig) (h : Hello priv random d) : List Bytes → Prop
  | nil : Flight config h []
  | snoc {ms : List Bytes} {body : Bytes} : Flight config h ms → ms.length < 4 →
    messageBody config h.keys (sha256 (h.hellos ++ ms.flatten)) ms.length = .ok body → 12 + body.length + 1 ≤ 2048 →
    Flight config h (ms ++ [Spec.Wire.handshake (messageType ms.length) (ms.length + 1) body])

/-- The record of the `n`-th protected message. -/
def Hello.record (h : Hello priv random d) (n : Nat) (message : Bytes) : Bytes :=
  sealRecord ⟨h.keys.serverWriteKey, h.keys.serverWriteIv, n, 2⟩ 22 message

/-- The calls up to the records of these messages. -/
def Hello.calls (h : Hello priv random d) (ms : List Bytes) : Trace :=
  got d :: connected :: sent (Spec.Wire.plaintextRecord (Server.serverHelloMessage random priv)) ::
    (ms.mapIdx h.record).map sent

theorem Hello.calls_snoc (h : Hello priv random d) (ms : List Bytes) (m : Bytes) :
    h.calls (ms ++ [m]) = h.calls ms ++ [sent (h.record ms.length m)] := by
  simp only [calls, List.mapIdx_append, List.mapIdx_singleton, List.map_append, List.map_singleton, List.cons_append,
    Nat.zero_add]

theorem Hello.receives_calls (h : Hello priv random d) (ms : List Bytes) : receives (h.calls ms) = 1 := by
  have hsent : receives ((ms.mapIdx h.record).map sent) = 0 := by
    rw [receives, List.countP_eq_zero]
    intro e he
    obtain ⟨d, -, rfl⟩ := List.mem_map.mp he
    exact Bool.false_ne_true
  change receives ([got d, connected, sent _] ++ _) = 1
  rw [receives_append, hsent]
  rfl

/-- The datagram is not a record of the client. -/
def Hello.Rejects (h : Hello priv random d) (datagram : Bytes) : Prop :=
  ∀ content contentType u, recordUnprotect (recordUnprotectionInit h.keys.clientWriteKey h.keys.clientWriteIv 2)
    (datagram.take maxMsg) maxMsg ≠ .ok (content, contentType, u)

end Hello

/-- The calls that a server makes: what it has done before each one. -/
inductive ServerCalls (config : ServerConfig) : Option (BytesN 32) → Option (BytesN 32) → Trace → UdpOp → Prop
  | listen (priv random : Option (BytesN 32)) : ServerCalls config priv random [] .recv
  | connect (priv random : Option (BytesN 32)) (d : Bytes) : ServerCalls config priv random [got d] .connect
  | hello {priv random : BytesN 32} {d : Bytes} {params : HelloParams} {t : Transcript}
    (accepted : onClientHello (d.take maxMsg) = .ok (params, t)) :
    ServerCalls config (some priv) (some random) [got d, connected]
      (.send (Spec.Wire.plaintextRecord (Server.serverHelloMessage random priv)))
  | message {priv random : BytesN 32} {d : Bytes} (h : Hello priv random d) {ms : List Bytes} {m : Bytes}
    (flight : Flight config h (ms ++ [m])) :
    ServerCalls config (some priv) (some random) (h.calls ms) (.send (h.record ms.length m))
  | wait {priv random : BytesN 32} {d : Bytes} (h : Hello priv random d) {ms : List Bytes} (flight : Flight config h ms)
    (complete : ms.length = 4) {skipped : List Bytes} (few : skipped.length < 8) (rejected : ∀ d' ∈ skipped, h.Rejects d') :
    ServerCalls config (some priv) (some random) (h.calls ms ++ skipped.map got) .recv

section Server

variable {config : ServerConfig} {priv random : BytesN 32} {d : Bytes} {h : Hello priv random d} {ms : List Bytes} {t : Trace}

/-- How a server fails. -/
def Fails (e : Status) (t : Trace) : Prop := e ≠ .ub ∧ receives t ≤ 9

/-- Where a server is after the records of `ms`. -/
structure Serving (config : ServerConfig) (h : Hello priv random d) (ms : List Bytes) (s : Session) (t : Trace) : Prop where
  calls : t = h.calls ms
  flight : Flight config h ms
  keys : s.keys = h.keys
  transcript : s.transcript.fed.flatten = h.hellos ++ ms.flatten
  serverWrite : s.serverWrite = ⟨h.keys.serverWriteKey, h.keys.serverWriteIv, ms.length, 2⟩
  clientRead : s.clientRead = recordUnprotectionInit h.keys.clientWriteKey h.keys.clientWriteIv 2

theorem messageBody_defined (hsign : ∀ hash, Avoids Status.ub (config.signFn hash))
    (hsize : (config.certDer.map List.length).sum < 2 ^ 63) (keys : HandshakeKeys) (hash : BytesN 32) (n : Nat) :
    Avoids Status.ub (messageBody config keys hash n) := by
  match n with
  | 0 => exact avoids_ok _
  | 1 => exact certificateSerialize_defined hsize
  | 2 => exact certificateVerifyBody_defined hsign hash
  | n + 3 =>
    change Avoids Status.ub ((·.1) <$> finishedCompute _ _ _)
    rw [Proof.Handshake.finishedCompute_eq]
    exact avoids_ok _

/-- The session and the calls after one more message. -/
theorem Serving.snoc {s : Session} {body : Bytes} (hs : Serving config h ms s t) (hn : ms.length < 4)
    (hbody : messageBody config s.keys (transcriptSnapshot s.transcript) ms.length = .ok body)
    (hfits : 12 + body.length + 1 ≤ 2048) :
    let m := Spec.Wire.handshake (messageType ms.length) (ms.length + 1) body
    Serving config h (ms ++ [m]) (Server.afterSend s m) (t ++ [sent (h.record ms.length m)]) where
  calls := by rw [hs.calls, h.calls_snoc]
  flight := by
    rw [hs.keys, Proof.Transcript.transcriptSnapshot_eq, hs.transcript] at hbody
    exact hs.flight.snoc hn hbody hfits
  keys := hs.keys
  transcript := by
    rw [Server.fed_afterSend, List.flatten_append, hs.transcript, List.flatten_append, List.append_assoc]
  serverWrite := by
    have hmod : (ms.length + 1) % 2 ^ 64 = ms.length + 1 := Nat.mod_eq_of_lt (by omega)
    rw [Server.afterSend, hs.serverWrite, List.length_append, List.length_singleton]
    simp only [hmod]
  clientRead := hs.clientRead

/-- The `n`-th protected message. -/
def sendNth (config : ServerConfig) (n : Nat) (s : Session) : Io Session :=
  sendMessage s (messageType n) (n + 1) (messageBody config s.keys (transcriptSnapshot s.transcript) n)

theorem serverFlight_eq (config : ServerConfig) (priv random : Option (BytesN 32)) : serverFlight config priv random = (do
    check (failIf (config.certDer.length = 0 ∨ certificateMsgMaxCerts < config.certDer.length) .badArg)
    let s ← exchangeHellos priv random
    let s ← sendNth config 0 s
    let s ← sendNth config 1 s
    let s ← sendNth config 2 s
    sendNth config 3 s) := rfl

theorem meets_sendNth (hsign : ∀ hash, Avoids Status.ub (config.signFn hash))
    (hsize : (config.certDer.map List.length).sum < 2 ^ 63) {s : Session} {n : Nat} (hs : Serving config h ms s t)
    (hn : ms.length = n) (hlt : n < 4) :
    Meets (.ofTrace (ServerCalls config (some priv) (some random)))
      (fun s' t' => ∃ ms, Serving config h ms s' t' ∧ ms.length = n + 1) Fails (sendNth config n s) t := by
  subst hn
  have hreceives : receives t = 1 := by rw [hs.calls, h.receives_calls]
  have hfails : ∀ e, e ≠ Status.ub → Fails e t := fun e he => ⟨he, by omega⟩
  refine Meets.bind (Q := fun b t' => messageBody config s.keys (transcriptSnapshot s.transcript) ms.length = .ok b ∧ t' = t)
    (meets_defined (messageBody_defined hsign hsize _ _ _) (fun b hb => ⟨hb, rfl⟩) hfails) ?_
  rintro body t' ⟨hbody, rfl⟩
  refine Meets.bind (Q := fun x t'' => protectMessage s (messageType ms.length) (ms.length + 1) body = .ok x ∧ t'' = t')
    (meets_defined (protectMessage_defined _ _ _ _) (fun x hx => ⟨hx, rfl⟩) hfails) ?_
  rintro ⟨rec, s'⟩ t' ⟨hprotect, rfl⟩
  obtain ⟨hfits, rfl, rfl⟩ := Server.protectMessage_eq_ok.mp hprotect
  have hnext := hs.snoc hlt hbody hfits
  rw [hs.serverWrite]
  refine Meets.bind (Q := fun _ t'' => t'' = t' ++ [sent _]) (meets_udpSend ?_ rfl ?_) ?_
  · rw [hs.calls]
    exact .message h hnext.flight
  · refine ⟨by decide, ?_⟩
    rw [receives_append, receives_send, hreceives]
    decide
  · rintro _ _ rfl
    exact Action.meets_pure ⟨_, hnext, by rw [List.length_append, List.length_singleton]⟩

theorem Serving.does_sendNth {s s' : Session} {n : Nat} {t' : Trace} (hs : Serving config h ms s t) (hn : ms.length = n)
    (hlt : n < 4) (hsend : Action.Does (sendNth config n s) t' s') :
    ∃ ms, Serving config h ms s' (t ++ t') ∧ ms.length = n + 1 := by
  subst hn
  obtain ⟨body, hbody, hsend⟩ := Action.Does.of_check_bind hsend
  obtain ⟨⟨rec, s''⟩, hprotect, hsend⟩ := Action.Does.of_check_bind hsend
  obtain ⟨hfits, rfl, rfl⟩ := Server.protectMessage_eq_ok.mp hprotect
  obtain ⟨t₁, t₂, _, rfl, hudp, hret⟩ := hsend.of_bind
  have hnext := hs.snoc hlt hbody hfits
  obtain ⟨ok, rfl, ⟨-, rfl⟩ | herror⟩ := yields_udpSend hudp
  · cases hret
    rw [hs.serverWrite]
    exact ⟨_, hnext, by rw [List.length_append, List.length_singleton]⟩
  · cases herror

theorem randomBytes_eq_ok {r : Option (BytesN 32)} {b : BytesN 32} : randomBytes r = .ok b ↔ r = some b := by
  cases r with
  | none => simp only [randomBytes, reduceCtorEq]
  | some b' => simp only [randomBytes, Except.ok.injEq, Option.some.injEq]

/-- The hellos: the server answers a ClientHello that it accepts. -/
theorem meets_exchangeHellos (priv random : Option (BytesN 32)) : Meets (.ofTrace (ServerCalls config priv random))
    (fun s t => ∃ priv' random' d, ∃ h : Hello priv' random' d, priv = some priv' ∧ random = some random' ∧ Serving config h [] s t)
    Fails (exchangeHellos priv random) [] := by
  refine Meets.bind (Q := fun b t => ∃ d, b = d.take maxMsg ∧ t = [got d, connected]) ?_ ?_
  · refine Meets.bind (Q := fun b t => ∃ d, b = d.take maxMsg ∧ t = [got d])
      (meets_udpRecv (.listen _ _) (fun d => ⟨d, rfl, rfl⟩) ⟨by decide, by decide⟩) ?_
    rintro _ _ ⟨d, rfl, rfl⟩
    refine ⟨.connect _ _ d, fun ok => ?_⟩
    cases ok with
    | false => exact ⟨by decide, (by decide : 1 ≤ 9)⟩
    | true => exact ⟨d, rfl, rfl⟩
  rintro _ _ ⟨d, rfl, rfl⟩
  have hfails : ∀ e, e ≠ Status.ub → Fails e [got d, connected] := fun e he => ⟨he, (by decide : 1 ≤ 9)⟩
  have hlen : (d.take maxMsg).length ≤ maxMsg := List.length_take_le _ _
  refine Meets.bind (Q := fun x t => onClientHello (d.take maxMsg) = .ok x ∧ t = [got d, connected])
    (meets_defined (onClientHello_defined hlen) (fun x hx => ⟨hx, rfl⟩) hfails) ?_
  rintro ⟨params, transcript⟩ _ ⟨haccepted, rfl⟩
  refine Meets.bind (Q := fun b t => priv = some b ∧ t = [got d, connected])
    (meets_defined (randomBytes_defined priv) (fun b hb => ⟨randomBytes_eq_ok.mp hb, rfl⟩) hfails) ?_
  rintro priv _ ⟨rfl, rfl⟩
  refine Meets.bind (Q := fun b t => random = some b ∧ t = [got d, connected])
    (meets_defined (randomBytes_defined random) (fun b hb => ⟨randomBytes_eq_ok.mp hb, rfl⟩) hfails) ?_
  rintro random _ ⟨rfl, rfl⟩
  rw [Server.serverHello_eq]
  refine Meets.bind (Q := fun x t => (Spec.Wire.plaintextRecord (Server.serverHelloMessage random priv),
    transcriptAdd transcript (Server.serverHelloMessage random priv)) = x ∧ t = [got d, connected])
    (Action.meets_check ⟨rfl, rfl⟩) ?_
  rintro _ _ ⟨rfl, rfl⟩
  refine Meets.bind (Q := fun _ t => t = [got d, connected, sent (Spec.Wire.plaintextRecord (Server.serverHelloMessage random priv))])
    (meets_udpSend (.hello haccepted) rfl ⟨by decide, (by decide : 1 ≤ 9)⟩) ?_
  rintro _ _ rfl
  refine meets_defined (startSession_defined _ _ _) (fun s hs => ?_) fun e he => ⟨he, (by decide : 1 ≤ 9)⟩
  obtain ⟨hne, rfl⟩ := Server.startSession_eq_ok.mp hs
  let h : Hello priv random d := ⟨params, transcript, haccepted, hne⟩
  have hhellos : (transcriptAdd transcript (Server.serverHelloMessage random priv)).fed.flatten = h.hellos :=
    Proof.Transcript.flatten_transcriptAdd _ _
  have hkeys : (Server.sessionOf (transcriptAdd transcript (Server.serverHelloMessage random priv))
      (Spec.X25519.x25519 priv params.x25519PublicKey)).keys = h.keys := by
    rw [Server.sessionOf, hhellos]
    rfl
  refine ⟨priv, random, d, h, rfl, rfl, rfl, .nil, hkeys, ?_, ?_, ?_⟩
  · rw [List.flatten_nil, List.append_nil]
    exact hhellos
  · rw [← hkeys]
    rfl
  · rw [← hkeys]
    rfl

theorem receives_got (ds : List Bytes) : receives (ds.map got) = ds.length := by
  rw [receives, List.countP_map, List.countP_eq_length]
  exact fun _ _ => rfl

/-- The wait for the client's Finished: what is left of the eight datagrams. -/
theorem meets_finishedLoop (hflight : Flight config h ms) (hcomplete : ms.length = 4) :
    ∀ (n : Nat) {st : Status} {skipped : List Bytes}, skipped.length + n = 8 → (∀ d' ∈ skipped, h.Rejects d') → st ≠ .ub →
    Meets (.ofTrace (ServerCalls config (some priv) (some random))) (fun _ t => receives t ≤ 9) Fails
      (finishedLoop (recordUnprotectionInit h.keys.clientWriteKey h.keys.clientWriteIv 2) n st) (h.calls ms ++ skipped.map got)
  | 0, _, skipped, hn, _, hst => by
    have hreceives : receives (h.calls ms ++ skipped.map got) = 1 + skipped.length := by
      rw [receives_append, h.receives_calls, receives_got]
    exact Action.meets_throw ⟨hst, by omega⟩
  | n + 1, _, skipped, hn, hrejects, _ => by
    have hreceives (r : Option Bytes) : receives (h.calls ms ++ skipped.map got ++ [⟨.recv, r⟩]) ≤ 9 := by
      rw [receives_append, receives_append, h.receives_calls, receives_got, receives_recv]
      omega
    refine Meets.bind (Q := fun b t => ∃ d, b = d.take maxMsg ∧ t = h.calls ms ++ skipped.map got ++ [got d])
      (meets_udpRecv (.wait h hflight hcomplete (by omega) hrejects) (fun d => ⟨d, rfl, rfl⟩) ⟨by decide, hreceives none⟩) ?_
    rintro _ _ ⟨d, rfl, rfl⟩
    have hdefined := avoids_recordUnprotect (recordUnprotectionInit h.keys.clientWriteKey h.keys.clientWriteIv 2)
      (d.take maxMsg) maxMsg
    cases hopen : recordUnprotect (recordUnprotectionInit h.keys.clientWriteKey h.keys.clientWriteIv 2) (d.take maxMsg) maxMsg with
    | ok x => exact Action.meets_pure (hreceives (some d))
    | error e =>
      have hne : e ≠ .ub := fun he => hdefined (he ▸ hopen)
      have hrejects' : ∀ d' ∈ skipped ++ [d], h.Rejects d' := by
        intro d' hmem
        rcases List.mem_append.mp hmem with hmem | hmem
        · exact hrejects d' hmem
        · rw [List.mem_singleton.mp hmem]
          intro content contentType u hok
          cases hopen.symm.trans hok
      have ih := meets_finishedLoop hflight hcomplete n (by rw [List.length_append, List.length_singleton]; omega)
        hrejects' hne
      rw [List.map_append, List.map_singleton, ← List.append_assoc] at ih
      cases e with
      | ub => exact absurd rfl hne
      | _ => exact ih

theorem meets_serverHandshake (hsign : ∀ hash, Avoids Status.ub (config.signFn hash))
    (hsize : (config.certDer.map List.length).sum < 2 ^ 63) (priv random : Option (BytesN 32)) :
    Meets (.ofTrace (ServerCalls config priv random)) (fun _ t => receives t ≤ 9) Fails (serverHandshake config priv random) [] := by
  refine Meets.bind (Q := fun _ t => receives t ≤ 9) ?_ fun r t hr => Action.meets_pure hr
  refine Meets.bind (Q := fun s t => ∃ priv' random' d, ∃ h : Hello priv' random' d, ∃ ms, priv = some priv' ∧ random = some random' ∧
    ms.length = 4 ∧ Serving config h ms s t) ?_ ?_
  · rw [serverFlight_eq]
    refine Meets.bind (Q := fun _ t => t = []) ?_ ?_
    · refine meets_defined ?_ (fun _ _ => rfl) fun e he => ⟨he, by decide⟩
      rw [← bind_pure (failIf _ _)]
      exact avoids_failIf_bind (by decide) fun _ => avoids_ok ()
    rintro _ _ rfl
    refine Meets.bind (meets_exchangeHellos priv random) ?_
    rintro s t ⟨priv, random, d, h, rfl, rfl, hs⟩
    refine Meets.bind (meets_sendNth hsign hsize hs rfl (by decide)) ?_
    rintro s t ⟨ms, hs, hn⟩
    refine Meets.bind (meets_sendNth hsign hsize hs hn (by decide)) ?_
    rintro s t ⟨ms, hs, hn⟩
    refine Meets.bind (meets_sendNth hsign hsize hs hn (by decide)) ?_
    rintro s t ⟨ms, hs, hn⟩
    refine (meets_sendNth hsign hsize hs hn (by decide)).mono ?_ fun _ _ he => he
    rintro s t ⟨ms, hs, hn⟩
    exact ⟨priv, random, d, h, ms, rfl, rfl, hn, hs⟩
  · rintro s t ⟨priv, random, d, h, ms, rfl, rfl, hcomplete, hs⟩
    have hloop := meets_finishedLoop hs.flight hcomplete 8 (show ([] : List Bytes).length + 8 = 8 from rfl)
      (fun _ hmem => absurd hmem List.not_mem_nil) (show Status.truncated ≠ .ub by decide)
    rw [List.map_nil, List.append_nil, ← hs.calls, ← hs.clientRead] at hloop
    refine Meets.bind hloop fun x t ht => ?_
    refine Meets.bind (Q := fun _ t => receives t ≤ 9) (meets_defined (onFinished_defined _ _ _) (fun _ _ => ht) fun e he => ⟨he, ht⟩) ?_
    exact fun v t ht => Action.meets_pure ht

end Server

/-- For all answers of the environment, with a `sign_fn` that does the same and certificates that fit the
address space: `nd_server_handshake` stays inside its buffers and has no signed overflow. It receives
at most nine datagrams, and each of its calls is one of `ServerCalls`. So it sends nothing before a
ClientHello that it accepts, its protected records have the sequence numbers 0 to 3, each message is
built on the transcript of those before it, and it goes on only if every send before succeeded. -/
theorem server_conduct {config : ServerConfig} {priv random : Option (BytesN 32)} {t : Trace} {r : Result HandshakeKeys}
    (hsign : ∀ hash, Avoids Status.ub (config.signFn hash)) (hsize : (config.certDer.map List.length).sum < 2 ^ 63)
    (h : Yields (ExceptT.run (serverHandshake config priv random)) t r) :
    r ≠ .error .ub ∧ receives t ≤ 9 ∧
    ∀ before o answer after, t = before ++ ⟨o, answer⟩ :: after → ServerCalls config priv random before o := by
  obtain ⟨hpost, hcalls⟩ := (meets_serverHandshake hsign hsize priv random).of_trace h
  cases r with
  | ok keys => exact ⟨by simp only [ne_eq, reduceCtorEq, not_false_eq_true], hpost, hcalls⟩
  | error e => exact ⟨fun he => hpost.1 (Except.error.inj he), hpost.2, hcalls⟩

/-- A server that is answered by a client: its seven calls before the wait, and the wait. -/
theorem server_conduct_sample : ∃ (t : Trace) (keys : HandshakeKeys),
    Yields (ExceptT.run (serverHandshake sampleConfig (some (zeros 32)) (some (zeros 32)))) t (.ok keys) ∧ receives t = 2 ∧
    ∀ before o answer after, t = before ++ ⟨o, answer⟩ :: after → ServerCalls sampleConfig (some (zeros 32)) (some (zeros 32)) before o := by
  obtain ⟨i, j, hserves⟩ := sample_serves
  obtain ⟨r, s, hsign, -⟩ := sampleParties_signed hserves
  have hserver := server_does (p := sampleParties sampleConfig r s) (serves_ne_nil hserves) hserves.count hserves.fits
    rfl hsign X25519.x25519_zeros_ne (Nat.zero_le 4)
  have hrun : Action.Does (serverHandshake sampleConfig (some (zeros 32)) (some (zeros 32))) _ _ :=
    hserver.bind (Action.does_pure _)
  have hsize : (sampleConfig.certDer.map List.length).sum < 2 ^ 63 := by
    have hlen := length_sampleCertificate sampleSignature.1 sampleSignature.2
    rw [sampleConfig, List.map_singleton, List.sum_singleton]
    omega
  exact ⟨_, _, hrun, rfl, (server_conduct (fun _ => avoids_ok _) hsize hrun).2.2⟩

end ND.Proof.Conduct
