import NanoDtls.Proof.Honest

/-!
# Agreement under an active attacker

A client and a server, each in an environment of its own: what either
receives has nothing to do with what the other sent. If the server accepts
the `verify_data` that the client computed and the hash functions have no
collision at the inputs that the two Finished depend on, the two sides have
hashed the same transcript and have the same keys (`keys_agree`).
-/

namespace ND.Proof.Agreement

open ND.Impl Sha256 Handshake Udp Client Server
open Spec.KeySchedule

/-- `f` has no collision at `x` and `y`. -/
def NoCollision {α β : Type} (f : α → β) (x y : α) : Prop := f x = f y → x = y

/-- The hash of the two hellos of a transcript. -/
def helloHash (t : Transcript) : BytesN 32 := sha256 (t.fed.take 2).flatten

/-- The key of the client's Finished. -/
def finishedKey (keys : HandshakeKeys) : BytesN 32 := finishedMacKey keys.clientHandshakeTrafficSecret.1

/-- The hash functions are injective where the client's Finished needs it: each field compares an input
of the client with the input of the server at the same place. -/
structure CollisionFree (c : ClientFlight) (s : ServerRun) : Prop where
  sha256 : NoCollision Sha256.sha256 c.session.transcript.fed.flatten s.session.transcript.fed.flatten
  hmac : NoCollision (fun x : Bytes × Bytes => hmacSha256 x.1 x.2)
    ((finishedKey c.session.keys).1, (Sha256.sha256 c.session.transcript.fed.flatten).1)
    ((finishedKey s.session.keys).1, (Sha256.sha256 s.session.transcript.fed.flatten).1)
  finished : NoCollision (fun x : Bytes × Bytes × Bytes => expandLabel 32 x.1 x.2.1 x.2.2)
    (c.session.keys.clientHandshakeTrafficSecret.1, cString "finished", [])
    (s.session.keys.clientHandshakeTrafficSecret.1, cString "finished", [])
  traffic : NoCollision (fun x : Bytes × Bytes × Bytes => expandLabel 32 x.1 x.2.1 x.2.2)
    (c.session.keys.handshakeSecret.1, cString "c hs traffic", (helloHash c.session.transcript).1)
    (s.session.keys.handshakeSecret.1, cString "c hs traffic", (helloHash s.session.transcript).1)

/-- The keys are a function of the handshake secret and the hash of the hellos. -/
theorem handshakeKeys_congr {shared shared' hash hash' : Bytes}
    (hsecret : (handshakeKeys shared hash).handshakeSecret = (handshakeKeys shared' hash').handshakeSecret)
    (hhash : hash = hash') : handshakeKeys shared hash = handshakeKeys shared' hash' := by
  have h : handshakeSecret shared = handshakeSecret shared' := hsecret
  simp only [handshakeKeys, h, hhash]

theorem clientTrafficSecret_eq (shared hash : Bytes) : (handshakeKeys shared hash).clientHandshakeTrafficSecret =
    expandLabel 32 (handshakeKeys shared hash).handshakeSecret.1 (cString "c hs traffic") hash := rfl

/-- What both sides have at the end: keys of their hellos, and the `verify_data` of their transcript. -/
structure Finishing (t : Transcript) (keys : HandshakeKeys) (v : BytesN 32) : Prop where
  ofHellos : ∃ shared, keys = handshakeKeys shared (helloHash t).1
  mac : v = hmacSha256 (finishedKey keys).1 (sha256 t.fed.flatten).1

theorem client_finishing {env : Env} {random priv : Option (BytesN 32)} {trustAnchor : X509.X509Cert} {atTime : Nat}
    {f : ClientFlight} (h : exec env (clientFlight random priv trustAnchor atTime) = .ok f) :
    Finishing f.session.transcript f.session.keys f.verifyData := by
  obtain ⟨_, h⟩ := Proof.Client.exec_eq_ok.mp h
  match random, priv with
  | none, _ => cases h
  | some _, none => cases h
  | some random, some priv =>
    obtain ⟨a, rfl, _⟩ := Proof.Client.run_clientFlight.mp h
    refine ⟨⟨(Spec.X25519.x25519 priv a.hello.keyShare).1, ?_⟩, ?_⟩
    · simp only [Proof.Client.flightOf, helloHash, Proof.Client.fed_sessionAfter, Proof.Client.keys_sessionAfter,
        a.keys_eq, List.take_succ_cons, List.take_zero, List.flatten_cons, List.flatten_nil, List.append_nil]
    · simp only [Proof.Client.flightOf, Proof.Client.clientVerifyData, verifyData, finishedKey, finishedMacKey]

theorem server_finishing {env : Env} {config : ServerConfig} {priv random : Option (BytesN 32)} {r : ServerRun}
    (h : exec env (serverRun config priv random) = .ok r) :
    Finishing r.session.transcript r.session.keys r.clientVerifyData := by
  obtain ⟨⟨ch, sh, ee, cert, cv, fin, shared, hfed, hkeys⟩, hv⟩ := Proof.Server.run_serverRun h
  refine ⟨⟨shared, ?_⟩, ?_⟩
  · simp only [hkeys, helloHash, hfed, List.take_succ_cons, List.take_zero, List.flatten_cons, List.flatten_nil,
      List.append_nil]
  · simp only [hv, verifyData, finishedKey, finishedMacKey]

/-- Whatever the two sides receive: if the server succeeds, the Finished it accepted is the one that the
client computed, and the hash functions do not collide, then both have fed the same bytes to their
transcripts, from the ClientHello to the server's Finished, and they have the same keys. -/
theorem keys_agree (clientEnv serverEnv : Env) (random priv serverPriv serverRandom : Option (BytesN 32))
    (trustAnchor : X509.X509Cert) (atTime : Nat) (config : ServerConfig) (c : ClientFlight) (s : ServerRun)
    (hc : exec clientEnv (clientFlight random priv trustAnchor atTime) = .ok c)
    (hs : exec serverEnv (serverRun config serverPriv serverRandom) = .ok s)
    (hv : s.clientVerifyData = c.verifyData) (free : CollisionFree c s) :
    c.session.transcript.fed.flatten = s.session.transcript.fed.flatten ∧ c.session.keys = s.session.keys := by
  obtain ⟨⟨shared, hkeys⟩, hcv⟩ := client_finishing hc
  obtain ⟨⟨shared', hkeys'⟩, hsv⟩ := server_finishing hs
  -- the MACs are equal, so are their keys and what they are computed over
  have hmac := free.hmac (hcv.symm.trans (hv.symm.trans hsv))
  obtain ⟨hkey, hhash⟩ := Prod.mk.inj hmac
  have hfed := free.sha256 (Subtype.ext hhash)
  -- from the keys of the MACs up the key schedule
  have htraffic := free.finished (Subtype.ext hkey)
  have hsecret : c.session.keys.clientHandshakeTrafficSecret = s.session.keys.clientHandshakeTrafficSecret :=
    Subtype.ext (Prod.mk.inj htraffic).1
  have hinputs := free.traffic (by
    simp only
    rw [hkeys, hkeys', ← clientTrafficSecret_eq, ← clientTrafficSecret_eq, ← hkeys, ← hkeys', hsecret])
  obtain ⟨hhs, hrest⟩ := Prod.mk.inj hinputs
  have hhello := (Prod.mk.inj hrest).2
  refine ⟨hfed, ?_⟩
  rw [hkeys, hkeys'] at hhs ⊢
  exact handshakeKeys_congr (Subtype.ext hhs) hhello

theorem noCollision_self {α β : Type} (f : α → β) (x : α) : NoCollision f x x := fun _ => rfl

theorem collisionFree_honest (p : Honest.Parties) (leaf : X509.X509Cert) :
    CollisionFree ⟨Honest.clientSession p, leaf, p.clientFinData, p.clientRecord⟩
      ⟨Honest.serverSession p, p.clientFinData⟩ :=
  ⟨noCollision_self _ _, noCollision_self _ _, noCollision_self _ _, noCollision_self _ _⟩

/-- The client and the server of an undisturbed handshake. -/
theorem keys_agree_sample : ∃ clientEnv serverEnv c s,
    exec clientEnv (clientFlight (some (zeros 32)) (some (zeros 32)) Honest.sampleAnchor 20300101000000) = .ok c ∧
    exec serverEnv (serverRun Honest.sampleConfig (some (zeros 32)) (some (zeros 32))) = .ok s ∧
    s.clientVerifyData = c.verifyData ∧ CollisionFree c s ∧ c.session.keys = s.session.keys := by
  obtain ⟨i, j, hserves⟩ := Honest.sample_serves
  obtain ⟨p, _, _, _, hc, hs⟩ :=
    Honest.exec_honest hserves (zeros 32) (zeros 32) (zeros 32) (zeros 32) X25519.x25519_zeros_ne
  have free := collisionFree_honest p ((Honest.sampleLeaf i j).shift 19)
  exact ⟨_, _, _, _, hc, hs, rfl, free, (keys_agree _ _ _ _ _ _ _ _ _ _ _ hc hs rfl free).2⟩

end ND.Proof.Agreement
