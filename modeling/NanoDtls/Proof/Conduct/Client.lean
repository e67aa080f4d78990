import NanoDtls.Proof.Conduct.Calls

/-!
# What a client does on the network

The system calls of `nd_client_handshake`, over all answers of the environment.
It sends copies of one ClientHello, at most five and none after a reply, and
then at most its Finished, as its last call and only if everything that it has
received makes up a flight that it accepts (`client_conduct`).
-/

namespace ND.Proof.Conduct

open ND.Impl Handshake Hello Messages Record Udp X509
open ND.Impl.Client hiding exchangeHellos Session
open Prog (Yields)
open ND.Action (Meets)
open Proof.Defined
open Proof.Parsers (encryptedExtensionsParse_ensures)

/-- The datagram is no unencrypted handshake record. -/
def NoReply (d : Bytes) : Prop := ∀ reply, parsePlaintextHandshake (d.take maxMsg) ≠ .ok reply

/-- No datagram received so far is a reply. -/
def Unanswered (t : Trace) : Prop := ∀ d, ⟨.recv, some d⟩ ∈ t → NoReply d

theorem Unanswered.send {t : Trace} (h : Unanswered t) (d : Bytes) (ok : Bool) : Unanswered (t ++ [⟨.send d, ok⟩]) := by
  intro d' hmem
  rcases List.mem_append.mp hmem with hmem | hmem
  · exact h d' hmem
  · cases List.mem_singleton.mp hmem

theorem Unanswered.recv {t : Trace} (h : Unanswered t) {r : Option Bytes} (hr : ∀ d, r = some d → NoReply d) :
    Unanswered (t ++ [⟨.recv, r⟩]) := by
  intro d' hmem
  rcases List.mem_append.mp hmem with hmem | hmem
  · exact h d' hmem
  · cases List.mem_singleton.mp hmem
    exact hr d' rfl

/-- After `k` copies of the ClientHello, and at most `j` receives. -/
structure Copies (ch : Bytes) (k j : Nat) (t : Trace) : Prop where
  sent : sends t = List.replicate k ch
  bound : k ≤ clientHelloMaxAttempts
  received : receives t ≤ j

/-- The calls that a client makes before its Finished. -/
def helloCalls (ch : Bytes) (t : Trace) : UdpOp → Prop
  | .send d => d = ch ∧ (∃ k < clientHelloMaxAttempts, sends t = List.replicate k ch) ∧ Unanswered t
  | .recv => True
  | .connect => False

variable {ch : Bytes} {k j : Nat} {t : Trace}

theorem Copies.mono {j' : Nat} (h : Copies ch k j t) (hj : j ≤ j') : Copies ch k j' t := ⟨h.sent, h.bound, h.received.trans hj⟩

theorem Copies.send (h : Copies ch k j t) (hk : k < clientHelloMaxAttempts) (ok : Bool) :
    Copies ch (k + 1) j (t ++ [⟨.send ch, ok⟩]) := by
  refine ⟨?_, hk, ?_⟩
  · rw [sends_append, sends_send, h.sent, List.replicate_succ']
  · rw [receives_append, receives_send]
    exact h.received

theorem Copies.recv (h : Copies ch k j t) (r : Option Bytes) : Copies ch k (j + 1) (t ++ [⟨.recv, r⟩]) := by
  refine ⟨?_, h.bound, ?_⟩
  · rw [sends_append, sends_recv, List.append_nil, h.sent]
  · rw [receives_append, receives_recv]
    exact Nat.add_le_add_right h.received 1

/-- How the client can fail before its Finished. -/
def Failed (ch : Bytes) (j : Nat) (e : Status) (t : Trace) : Prop := e ≠ .ub ∧ ∃ k, Copies ch k j t

/-- The receive after a copy: it is a reply, or there is still none. -/
theorem meets_recvPlaintextHandshake (h : Copies ch k j t) (hu : Unanswered t) :
    Meets (.ofTrace (helloCalls ch)) (fun reply t' => reply.2.1.length ≤ maxMsg ∧ Copies ch k (j + 1) t')
      (fun e t' => e ≠ .ub ∧ Copies ch k (j + 1) t' ∧ Unanswered t') recvPlaintextHandshake t := by
  refine Meets.bind (Q := fun d t' => ∃ d', d = d'.take maxMsg ∧ t' = t ++ [⟨.recv, some d'⟩]) ?_ ?_
  · refine meets_udpRecv trivial (fun d => ⟨d, rfl, rfl⟩) ⟨by decide, h.recv none, hu.recv ?_⟩
    intro d hd
    cases hd
  · rintro d t' ⟨d', rfl, rfl⟩
    obtain ⟨hdefined, hfrag⟩ := parsePlaintextHandshake_ensures (d'.take maxMsg)
    apply Action.meets_check
    cases hparse : parsePlaintextHandshake (d'.take maxMsg) with
    | ok reply => exact ⟨(hfrag reply hparse).trans (List.length_take_le _ _), h.recv _⟩
    | error e =>
      refine ⟨fun he => hdefined (he ▸ hparse), h.recv _, hu.recv ?_⟩
      intro d hd reply hreply
      cases hd
      cases hparse.symm.trans hreply

/-- The loop that sends the ClientHello: the attempts that are left are those left of the five. -/
theorem meets_helloLoop (ch : Bytes) : ∀ (n : Nat) {k : Nat} {st : Status} {t : Trace}, Copies ch k k t → Unanswered t →
    k + n = clientHelloMaxAttempts → st ≠ .ub → Meets (.ofTrace (helloCalls ch))
      (fun reply t' => reply.2.1.length ≤ maxMsg ∧ ∃ k, Copies ch k 5 t') (Failed ch 9) (helloLoop ch n st) t
  | 0, k, st, _, h, _, _, hst => Action.meets_throw ⟨hst, k, h.mono (h.bound.trans (by decide))⟩
  | n + 1, k, st, t, h, hu, hkn, _ => by
    have hk : k < clientHelloMaxAttempts := by omega
    have hsend : Meets (.ofTrace (helloCalls ch)) (fun _ t' => t' = t ++ [⟨.send ch, true⟩])
        (fun e t' => e ≠ .ub ∧ t' = t ++ [⟨.send ch, false⟩]) (udpSend ch) t :=
      meets_udpSend ⟨rfl, ⟨k, hk, h.sent⟩, hu⟩ rfl ⟨by decide, rfl⟩
    refine Meets.bind (meets_attempt hsend fun e t he => he.1) fun r t' hr => ?_
    cases r with
    | error e =>
      obtain ⟨he, rfl⟩ := hr
      exact meets_helloLoop ch n ((h.send hk false).mono (Nat.le_add_right k 1)) (hu.send ch false) (by omega) he
    | ok _ =>
      obtain rfl := hr
      refine Meets.bind (meets_attempt (meets_recvPlaintextHandshake (h.send hk true) (hu.send ch true)) fun e t he => he.1) ?_
      intro reply t'' hpost
      cases reply with
      | ok reply => exact Action.meets_pure ⟨hpost.1, k + 1, hpost.2.mono (by simp only [clientHelloMaxAttempts] at hk; omega)⟩
      | error e => exact meets_helloLoop ch n hpost.2.1 hpost.2.2 (by omega) hpost.1

theorem meets_recvMessage {α : Type} {s : Client.Session} {msgType : Byte} {accept : Span → Result α} (h : Copies ch k j t)
    (hj : j < 9) (haccept : ∀ frag, frag.len < 2 ^ 31 → Avoids Status.ub (accept frag)) :
    Meets (.ofTrace (helloCalls ch)) (fun _ t' => Copies ch k (j + 1) t') (Failed ch 9) (recvMessage s msgType accept) t := by
  have hfail (r : Option Bytes) : ∀ e, e ≠ Status.ub → Failed ch 9 e (t ++ [⟨.recv, r⟩]) := fun e he => ⟨he, k, (h.recv r).mono hj⟩
  refine Meets.bind (Q := fun _ t' => ∃ d, t' = t ++ [⟨.recv, some d⟩]) ?_ ?_
  · exact meets_udpRecv trivial (fun d => ⟨d, rfl⟩) (hfail none _ (by decide))
  · rintro datagram t' ⟨d, rfl⟩
    obtain ⟨hopen, hlen⟩ := openHandshake_ensures s.serverRead datagram
    refine Meets.bind (Q := fun x t' => x.2.2.1.len ≤ maxMsg ∧ t' = t ++ [⟨.recv, some d⟩])
      (meets_defined hopen (fun x hx => ⟨hlen x hx, rfl⟩) (hfail _)) ?_
    rintro ⟨content, hh, frag, u⟩ t' ⟨hfrag, rfl⟩
    refine Meets.bind (meets_defined (expectMessage_defined hh msgType) (Q := fun _ t' => t' = t ++ [⟨.recv, some d⟩])
      (fun _ _ => rfl) (hfail _)) ?_
    rintro _ t' rfl
    refine Meets.bind (meets_defined (haccept frag (hfrag.trans_lt (by decide))) (Q := fun _ t' => t' = t ++ [⟨.recv, some d⟩])
      (fun _ _ => rfl) (hfail _)) ?_
    rintro a t' rfl
    exact Action.meets_pure (h.recv _)

section ClientFlight

variable {random priv : BytesN 32} {trustAnchor : X509Cert} {atTime : Nat}

/-- The datagram of the ClientHello. -/
def helloDatagram (random priv : BytesN 32) : Bytes := Spec.Wire.plaintextRecord (Spec.Client.clientHelloMessage random priv)

theorem meets_clientFlight : Meets (.ofTrace (helloCalls (helloDatagram random priv)))
    (fun _ t => ∃ k, Copies (helloDatagram random priv) k 9 t) (Failed (helloDatagram random priv) 9)
    (clientFlight (some random) (some priv) trustAnchor atTime) [] := by
  -- the random values and the hellos
  refine Meets.bind (Q := fun b t => random = b ∧ t = []) (Action.meets_check ⟨rfl, rfl⟩) ?_
  rintro _ _ ⟨rfl, rfl⟩
  refine Meets.bind (Q := fun b t => priv = b ∧ t = []) (Action.meets_check ⟨rfl, rfl⟩) ?_
  rintro _ _ ⟨rfl, rfl⟩
  refine Meets.bind (Q := fun _ t => ∃ k, Copies (helloDatagram random priv) k 5 t) ?_ ?_
  · rw [Client.exchangeHellos, Client.clientHello_eq]
    refine Meets.bind (Q := fun x t => helloDatagram random priv = x.1 ∧ t = []) (Action.meets_check ⟨rfl, rfl⟩) ?_
    rintro ⟨_, transcript⟩ _ ⟨rfl, rfl⟩
    refine Meets.bind (meets_helloLoop _ 5 ⟨rfl, by decide, by decide⟩ (fun _ hmem => absurd hmem List.not_mem_nil) rfl (by decide)) ?_
    rintro reply t ⟨hlen, k, hcopies⟩
    refine meets_defined (onServerHello_defined _ _ (hlen.trans_lt (by decide))) (fun _ _ => ⟨k, hcopies⟩) ?_
    exact fun e he => ⟨he, k, hcopies.mono (by decide)⟩
  -- the server's messages
  rintro s t ⟨k, hcopies⟩
  refine Meets.bind (meets_recvMessage hcopies (by decide) fun frag hlen => (encryptedExtensionsParse_ensures hlen).1) ?_
  rintro ⟨_, s⟩ t hcopies
  refine Meets.bind (meets_recvMessage hcopies (by decide) fun frag => checkCertificate_defined trustAnchor atTime) ?_
  rintro ⟨leaf, s⟩ t hcopies
  refine Meets.bind (meets_recvMessage hcopies (by decide) fun frag => checkCertificateVerify_defined _ leaf) ?_
  rintro ⟨_, s⟩ t hcopies
  refine Meets.bind (meets_recvMessage hcopies (by decide) fun frag _ => checkFinished_defined _ _ frag.bytes) ?_
  rintro ⟨_, s⟩ t hcopies
  dsimp only
  rw [Client.clientFinished_eq]
  exact ⟨k, hcopies⟩

/-- The sends of a client after the calls `before`, and the calls that follow: copies of the
ClientHello while there is no reply, and its Finished, as the last call, if it accepts. -/
inductive ClientSends (random priv : BytesN 32) (trustAnchor : X509Cert) (atTime : Nat) (before : Trace) : Bytes → Trace → Prop
  | hello {k : Nat} (after : Trace) (bound : k < 5) (copies : sends before = List.replicate k (helloDatagram random priv))
    (unanswered : Unanswered before) : ClientSends random priv trustAnchor atTime before (helloDatagram random priv) after
  | finished (a : Spec.Client.Acceptance (envOf before) random priv trustAnchor atTime) :
    ClientSends random priv trustAnchor atTime before (Client.flightOf a).record []

theorem Does.acceptance {t : Trace} {f : ClientFlight} (h : Action.Does (clientFlight (some random) (some priv) trustAnchor atTime) t f)
    (hconnect : ⟨.connect, false⟩ ∉ t) :
    ∃ a : Spec.Client.Acceptance (envOf t) random priv trustAnchor atTime, f = Client.flightOf a := by
  have hrun := h.run_fst (answers_envOf t [] hconnect)
  obtain ⟨a, rfl, -⟩ := Client.run_clientFlight.mp (Prod.ext hrun rfl)
  exact ⟨a, rfl⟩

/-- The runs of the client: up to its Finished, and then its send, if it comes to it. -/
theorem Yields.clientHandshake_cases {random priv : Option (BytesN 32)} {t : Trace} {r : Result ClientResult}
    (h : Yields (ExceptT.run (clientHandshake random priv trustAnchor atTime)) t r) :
    (∃ e, r = .error e ∧ Yields (ExceptT.run (clientFlight random priv trustAnchor atTime)) t (.error e)) ∨
    ∃ t' f ok, t = t' ++ [⟨.send f.record, ok⟩] ∧ Action.Does (clientFlight random priv trustAnchor atTime) t' f ∧
      r ≠ .error .ub := by
  rcases Action.yields_bind_iff.mp h with herror | ⟨t₁, t₂, f, rfl, h₁, h₂⟩
  · exact .inl herror
  · have hsend : ∃ ok, t₂ = [⟨.send f.record, ok⟩] ∧ r ≠ .error .ub := by
      rcases Action.yields_bind_iff.mp h₂ with ⟨e, rfl, hfail⟩ | ⟨t₂, t₃, _, rfl, hsend, hret⟩
      · obtain ⟨ok, rfl, ⟨he, -⟩ | he⟩ := yields_udpSend hfail
        · cases he
        · cases he
          exact ⟨ok, rfl, by simp only [ne_eq, reduceCtorEq, not_false_eq_true, Except.error.injEq]⟩
      · obtain ⟨ok, rfl, -⟩ := yields_udpSend hsend
        cases hret
        exact ⟨ok, rfl, by simp only [ne_eq, reduceCtorEq, not_false_eq_true]⟩
    obtain ⟨ok, rfl, hr⟩ := hsend
    exact .inr ⟨t₁, f, ok, rfl, h₁, hr⟩

theorem clientFlight_none {random priv : Option (BytesN 32)} {t : Trace} {r : Result ClientFlight}
    (h : Yields (ExceptT.run (clientFlight random priv trustAnchor atTime)) t r) (hnone : random = none ∨ priv = none) :
    t = [] ∧ r = .error .badArg := by
  rcases hnone with rfl | rfl
  · cases h
    exact ⟨rfl, rfl⟩
  · cases random with
    | none =>
      cases h
      exact ⟨rfl, rfl⟩
    | some random =>
      cases h
      exact ⟨rfl, rfl⟩

/-- The calls of the client up to its Finished. -/
theorem clientFlight_conduct {t : Trace} {r : Result ClientFlight}
    (h : Yields (ExceptT.run (clientFlight (some random) (some priv) trustAnchor atTime)) t r) :
    r ≠ .error .ub ∧ receives t ≤ 9 ∧ (∀ ok, ⟨.connect, ok⟩ ∉ t) ∧
    ∀ before d ok after, t = before ++ ⟨.send d, ok⟩ :: after →
      ∀ after', ClientSends random priv trustAnchor atTime before d after' := by
  obtain ⟨hpost, hcalls⟩ := meets_clientFlight.of_trace h
  have hend : r ≠ .error .ub ∧ ∃ k, Copies (helloDatagram random priv) k 9 t := by
    cases r with
    | ok f => exact ⟨by simp only [ne_eq, reduceCtorEq, not_false_eq_true], hpost⟩
    | error e => exact ⟨fun he => hpost.1 (Except.error.inj he), hpost.2⟩
  obtain ⟨hr, k, hcopies⟩ := hend
  refine ⟨hr, hcopies.received, fun ok hmem => ?_, fun before d ok after ht after' => ?_⟩
  · obtain ⟨before, after, rfl⟩ := List.append_of_mem hmem
    exact hcalls before _ ok after rfl
  · obtain ⟨rfl, ⟨k, hk, hsends⟩, hunanswered⟩ := hcalls before _ ok after ht
    exact .hello after' hk hsends hunanswered

/-- For all answers of the environment: `nd_client_handshake` stays inside its buffers and has no
signed overflow, receives at most nine datagrams and connects to no other peer. It sends its ClientHello at most five times and
not after a reply, and its Finished only if all it received is a flight that it accepts; nothing
follows its Finished. -/
theorem client_conduct {random priv : Option (BytesN 32)} {trustAnchor : X509Cert} {atTime : Nat} {t : Trace}
    {r : Result ClientResult} (h : Yields (ExceptT.run (clientHandshake random priv trustAnchor atTime)) t r) :
    r ≠ .error .ub ∧ receives t ≤ 9 ∧ (∀ ok, ⟨.connect, ok⟩ ∉ t) ∧
    ∀ before d ok after, t = before ++ ⟨.send d, ok⟩ :: after → ∃ random' priv', random = some random' ∧ priv = some priv' ∧
      ClientSends random' priv' trustAnchor atTime before d after := by
  rcases Yields.clientHandshake_cases h with ⟨e, rfl, hflight⟩ | ⟨t, f, ok, rfl, hflight, hr⟩
  · by_cases hnone : random = none ∨ priv = none
    · obtain ⟨rfl, he⟩ := clientFlight_none hflight hnone
      cases he
      refine ⟨by simp only [ne_eq, Except.error.injEq, reduceCtorEq, not_false_eq_true], by decide, fun _ => List.not_mem_nil, ?_⟩
      intro before d ok after ht
      exact absurd ht.symm (List.append_ne_nil_of_right_ne_nil _ (List.cons_ne_nil _ _))
    · obtain ⟨⟨random, rfl⟩, priv, rfl⟩ : (∃ b, random = some b) ∧ ∃ b, priv = some b := by
        simpa only [not_or, Option.ne_none_iff_exists', ← ne_eq] using hnone
      obtain ⟨hr, hreceives, hconnect, hsends⟩ := clientFlight_conduct hflight
      refine ⟨fun he => hr (congrArg _ (Except.error.inj he)), hreceives, hconnect, fun before d ok after ht => ?_⟩
      exact ⟨random, priv, rfl, rfl, hsends before d ok after ht after⟩
  · obtain ⟨⟨random, rfl⟩, priv, rfl⟩ : (∃ b, random = some b) ∧ ∃ b, priv = some b := by
      by_contra hnone
      rw [not_and_or, ← Option.ne_none_iff_exists', ← Option.ne_none_iff_exists', not_not, not_not] at hnone
      cases (clientFlight_none hflight hnone).2
    obtain ⟨-, hreceives, hconnect, hsends⟩ := clientFlight_conduct hflight
    refine ⟨hr, ?_, fun ok' hmem => ?_, fun before d ok' after ht => ⟨random, priv, rfl, rfl, ?_⟩⟩
    · rw [receives_append, receives_send]
      exact hreceives
    · rcases List.mem_append.mp hmem with hmem | hmem
      · exact hconnect ok' hmem
      · cases List.mem_singleton.mp hmem
    -- the send is the last one, or it is one of the flight
    · rcases List.eq_nil_or_concat after with rfl | ⟨after, e, rfl⟩
      · obtain ⟨rfl, he⟩ := List.append_inj' ht rfl
        cases he
        obtain ⟨a, rfl⟩ := Does.acceptance hflight (hconnect false)
        exact .finished a
      · rw [List.concat_eq_append, ← List.cons_append, ← List.append_assoc] at ht
        exact hsends before d ok' after (List.append_inj' ht rfl).1 _

/-- A client that accepts a server's flight: its last call is the send of its Finished. -/
theorem client_conduct_sample : ∃ (before : Trace) (d : Bytes) (result : ClientResult),
    Yields (ExceptT.run (clientHandshake (some (zeros 32)) (some (zeros 32)) Honest.sampleAnchor 20300101000000))
      (before ++ [⟨.send d, true⟩]) (.ok result) ∧
    receives (before ++ [⟨.send d, true⟩]) ≤ 9 ∧ ClientSends (zeros 32) (zeros 32) Honest.sampleAnchor 20300101000000 before d [] := by
  obtain ⟨i, j, hserves⟩ := Honest.sample_serves
  obtain ⟨before, d, result, hrun⟩ := does_clientHandshake hserves
  obtain ⟨-, hreceives, -, hsends⟩ := client_conduct hrun
  obtain ⟨_, _, hrandom, hpriv, hlast⟩ := hsends _ _ true [] rfl
  cases hrandom
  cases hpriv
  exact ⟨_, _, _, hrun, hreceives, hlast⟩

end ClientFlight

end ND.Proof.Conduct
