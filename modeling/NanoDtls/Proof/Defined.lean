import NanoDtls.Proof.Asn1
import NanoDtls.Proof.P256.Ecdsa
import NanoDtls.Proof.Parsers
import NanoDtls.Proof.Server
import NanoDtls.Proof.X509.Bounds

/-!
# The steps of a handshake are defined

What the handshakes compute between two system calls never comes to `Status.ub`
(an access outside a buffer, a signed overflow), whatever was received: a
datagram has at most `ND_MAX_MSG` bytes, so the parsers stay inside it, and a
record that opens has a content that fits the buffer it is written to. Shifts of
negative values are not counted here; those of `fe_carry` are in
`NanoDtls.Proof.X25519.Shifts`.
-/

namespace ND.Proof.Defined

open ND.Impl Handshake Hello Messages Record Udp X509
open ND.Impl.Client hiding exchangeHellos Session
open Proof.Parsers (handshakeParse_ensures serverHelloParse_ensures clientHelloParse_ensures certificateParse_ensures
  certificateVerifyParse_ensures)
open Proof.Handshake

/-! ## Certificates and signatures -/

theorem ecdsaVerify_defined (qx qy hash r s : BytesN 32) : Avoids Status.ub (P256.p256EcdsaVerify qx qy hash r s) := by
  rcases P256.ecdsaVerify_decides qx qy hash r s with ⟨hok, -⟩ | ⟨herror, -⟩
  · rw [hok]
    exact avoids_ok ()
  · rw [herror]
    exact avoids_error (by decide)

theorem verifyLinks_defined (trustAnchor : X509Cert) : ∀ chain : List X509Cert, Avoids Status.ub (verifyLinks trustAnchor chain)
  | [] => avoids_ok ()
  | cert :: chain => by
    refine avoids_failIf_bind (by decide) fun _ => avoids_failIf_bind (by decide) fun _ => ?_
    exact (ecdsaVerify_defined _ _ _ _ _).bind fun _ _ => verifyLinks_defined trustAnchor chain

theorem x509VerifyChain_defined (chain : List X509Cert) (trustAnchor : X509Cert) (atTime : Nat) :
    Avoids Status.ub (x509VerifyChain chain trustAnchor atTime) := by
  refine avoids_failIf_bind (by decide) fun _ => avoids_failIf_bind (by decide) fun _ => ?_
  exact avoids_failIf_bind (by decide) fun _ => verifyLinks_defined trustAnchor chain

theorem mapM_ensures {α β : Type} {f : α → Result β} {P : β → Prop} : ∀ {l : List α}, (∀ a ∈ l, Ensures Status.ub (f a) P) →
    Ensures Status.ub (l.mapM f) fun r => r.length = l.length
  | [], _ => ensures_ok rfl
  | a :: l, h => by
    rw [List.mapM_cons]
    refine (h a List.mem_cons_self).bind fun b _ => ?_
    refine (mapM_ensures fun a' ha' => h a' (List.mem_cons_of_mem _ ha')).bind fun r hr => ?_
    exact ensures_ok (by rw [List.length_cons, List.length_cons, hr])

variable {frag : Span}

theorem checkCertificate_defined (trustAnchor : X509Cert) (atTime : Nat) (h : frag.len < 2 ^ 31) :
    Avoids Status.ub (checkCertificate trustAnchor atTime frag) := by
  obtain ⟨hparse, hcerts⟩ := certificateParse_ensures h
  refine hparse.bind fun certs hok => ?_
  obtain ⟨stop, hlisted⟩ := hcerts certs hok
  have hder : ∀ der ∈ certs, Ensures Status.ub (X509Cert.shift (frag.off + der.off) <$> x509Parse 64 der.bytes) fun _ => True := by
    intro der hmem
    have hlen : der.len < 2 ^ 64 := (hlisted.inside der hmem).len_le.trans_lt (Nat.lt_trans h (by decide))
    exact (x509Parse_ensures hlen).bind fun c _ => ensures_ok trivial
  obtain ⟨hchain, hlength⟩ := mapM_ensures hder
  refine hchain.bind fun chain _ => (x509VerifyChain_defined chain trustAnchor atTime).bind fun _ hverify => ?_
  -- a chain that verifies has a first certificate
  cases chain with
  | nil => cases hverify
  | cons leaf chain => exact avoids_ok leaf

theorem checkCertificateVerify_defined (hash : BytesN 32) (leaf : X509Cert) (h : frag.len < 2 ^ 31) :
    Avoids Status.ub (checkCertificateVerify hash leaf frag) := by
  obtain ⟨hparse, hmsg⟩ := certificateVerifyParse_ensures h
  refine hparse.bind fun msg hok => avoids_failIf_bind (by decide) fun _ => ?_
  have hsig : msg.signature.len < 2 ^ 64 := (hmsg msg hok).len_le.trans_lt (Nat.lt_trans h (by decide))
  rw [Client.certificateVerifyContent_eq, ok_bind]
  refine (readEcdsaSigValue_ensures hsig).1.bind fun rs _ => ?_
  exact ecdsaVerify_defined _ _ _ _ _

theorem checkFinished_defined (baseKey hash : BytesN 32) (body : Bytes) :
    Avoids Status.ub (checkFinished baseKey hash body) := by
  refine avoids_failIf_bind (by decide) fun hlen => ?_
  rw [bytesN, dif_pos (not_not.mp hlen), ok_bind, finishedVerify, finishedCompute_eq, ok_bind]
  exact avoids_failIf_bind (by decide) fun _ => avoids_ok _

/-! ## Records -/

theorem expectMessage_defined (hh : HandshakeHdr) (msgType : Byte) : Avoids Status.ub (expectMessage hh msgType) := by
  refine avoids_failIf_bind (by decide) fun _ => ?_
  rw [← bind_pure (failIf _ _)]
  exact avoids_failIf_bind (by decide) fun _ => avoids_ok ()

theorem parsePlaintextHandshake_ensures (datagram : Bytes) : Ensures Status.ub (parsePlaintextHandshake datagram) fun x =>
    x.2.1.length ≤ datagram.length := by
  refine ⟨parsePlaintextHandshake_defined datagram, fun x hx => ?_⟩
  obtain ⟨hdr, fragment, record⟩ := x
  obtain ⟨phdr, body, hplain, -, hparse, rfl⟩ := Client.parsePlaintextHandshake_eq_ok.mp hx
  obtain ⟨-, -, rest, rfl⟩ := plaintextParse_eq_ok.mp hplain
  have hbody := ((handshakeParse_ensures record).2 _ hparse).len_le
  have hbytes := length_plaintextBytes phdr record
  simp only [Span.len, Span.ofBytes] at hbody
  simp only [List.length_append]
  omega

theorem openHandshake_ensures (u : RecordUnprotection) (datagram : Bytes) :
    Ensures Status.ub (openHandshake u datagram) fun x => x.2.2.1.len ≤ maxMsg := by
  constructor
  · refine (Record.avoids_recordUnprotect u datagram maxMsg).bind fun ⟨content, ct, u'⟩ _ => ?_
    refine avoids_failIf_bind (by decide) fun _ => (handshakeParse_ensures content).1.bind fun _ _ => avoids_ok _
  · rintro ⟨content, hdr, fragment, u'⟩ hx
    obtain ⟨hopen, hparse⟩ := Client.openHandshake_eq_ok.mp hx
    have hbody := ((handshakeParse_ensures content).2 _ hparse).len_le
    have hcap : content.length ≤ maxMsg := by
      simp only [recordUnprotect, bind_eq_ok, failIf_eq_ok, Prod.exists, pure_eq_ok, Except.ok.injEq, Prod.mk.injEq] at hopen
      obtain ⟨_, _, _, -, _, -, _, -, _, -, _, -, _, -, _, _, -, _, hcap, rfl, -, -⟩ := hopen
      exact Nat.le_of_not_lt hcap
    exact Nat.le_trans hbody hcap

/-! ## The hellos -/

theorem sharedSecret_defined (priv peer : BytesN 32) : Avoids Status.ub (sharedSecret priv peer) := by
  rw [sharedSecret, X25519.scalarmult_eq, ok_bind]
  exact avoids_failIf_bind (by decide) fun _ => avoids_ok _

theorem randomBytes_defined (r : Option (BytesN 32)) : Avoids Status.ub (randomBytes r) := by
  cases r with
  | none => exact avoids_error (by decide)
  | some b => exact avoids_ok b

theorem onServerHello_defined (priv : BytesN 32) (t : Transcript) {reply : HandshakeHdr × Bytes × Bytes}
    (h : reply.2.1.length < 2 ^ 31) : Avoids Status.ub (onServerHello priv t reply) := by
  refine (expectMessage_defined _ _).bind fun _ _ => (serverHelloParse_ensures h).1.bind fun sh _ => ?_
  refine avoids_failIf_bind (by decide) fun _ => (sharedSecret_defined _ _).bind fun shared _ => ?_
  rw [deriveHandshakeKeys_eq, ok_bind]
  exact avoids_ok _

theorem onClientHello_defined {datagram : Bytes} (h : datagram.length ≤ maxMsg) :
    Avoids Status.ub (Server.onClientHello datagram) := by
  obtain ⟨hparse, hlen⟩ := parsePlaintextHandshake_ensures datagram
  refine hparse.bind fun x hok => (expectMessage_defined _ _).bind fun _ _ => ?_
  have hfrag : x.2.1.length < 2 ^ 31 := ((hlen x hok).trans h).trans_lt (by decide)
  exact (clientHelloParse_ensures hfrag).1.bind fun ch _ => avoids_ok _

theorem startSession_defined (priv : BytesN 32) (ch : HelloParams) (t : Transcript) :
    Avoids Status.ub (Server.startSession priv ch t) := by
  refine (sharedSecret_defined _ _).bind fun shared _ => ?_
  rw [deriveHandshakeKeys_eq, ok_bind]
  exact avoids_ok _

/-! ## The server's messages -/

theorem handshakeSerialize_defined (hdr : HandshakeHdr) (fragment : Bytes) (cap : Nat) :
    Ensures Status.ub (handshakeSerialize hdr fragment cap) fun out => out.length ≤ cap := by
  refine ensures_failIf_bind (by decide) fun _ => ensures_failIf_bind (by decide) fun _ =>
    ensures_failIf_bind (by decide) fun hcap => ensures_ok ?_
  simp only [handshakeHdrLen] at hcap
  simp only [List.length_append, List.length_singleton, length_beBytes]
  omega

theorem protectMessage_defined (s : Server.Session) (msgType : Byte) (messageSeq : Nat) (body : Bytes) :
    Avoids Status.ub (Server.protectMessage s msgType messageSeq body) := by
  obtain ⟨hwrap, hlen⟩ := handshakeSerialize_defined ⟨msgType, body.length % 2 ^ 32, messageSeq, 0, body.length % 2 ^ 32⟩
    body maxMsg
  refine Avoids.bind (hwrap.bind fun out _ => avoids_ok _) fun x hx => Avoids.bind ?_ fun _ _ => avoids_ok _
  obtain ⟨out, hout, hx⟩ := bind_eq_ok.mp hx
  have hle := hlen out hout
  obtain rfl := Except.ok.inj hx
  -- the sum of a length of at most 4096 and one does not wrap around
  refine avoids_failIf_bind (by decide) fun hsum => ?_
  have hsmall : out.length + 1 < 2 ^ 64 := by
    simp only [maxMsg] at hle
    omega
  rw [szAdd_eq hsmall] at hsum
  rw [failIf_bind hsum]
  exact avoids_failIf_bind (by decide) fun _ => avoids_ok _

theorem certificateSerialize_defined {certs : List Bytes} (hsize : (certs.map List.length).sum < 2 ^ 63) :
    Avoids Status.ub (certificateSerialize certs maxMsg) := by
  by_cases hcount : certs ≠ [] ∧ certs.length ≤ 4
  · rw [Messages.certificateSerialize_eq_ite hcount.1 hcount.2 hsize (by decide)]
    split
    · exact avoids_ok _
    · exact avoids_error (by decide)
  · refine avoids_failIf_bind (by decide) fun h => absurd ⟨?_, ?_⟩ hcount
    · exact fun h0 => h (.inl (List.length_eq_zero_iff.mpr h0))
    · exact Nat.le_of_not_lt fun h4 => h (.inr h4)

theorem certificateVerifyBody_defined {config : Server.ServerConfig} (hsign : ∀ hash, Avoids Status.ub (config.signFn hash))
    (hash : BytesN 32) : Avoids Status.ub (Server.certificateVerifyBody config hash) := by
  rw [Server.certificateVerifyBody, Client.certificateVerifyContent_eq, ok_bind]
  refine (hsign _).bind fun ⟨r, s⟩ _ => ?_
  dsimp only
  rw [Asn1.writeEcdsaSigValue_eq, ok_bind]
  exact avoids_ok _

theorem onFinished_defined (s : Server.Session) (content : Bytes) (contentType : Byte) :
    Avoids Status.ub (Server.onFinished s content contentType) := by
  refine avoids_failIf_bind (by decide) fun _ => (handshakeParse_ensures content).1.bind fun x _ => ?_
  exact (expectMessage_defined _ _).bind fun _ _ => checkFinished_defined _ _ _

end ND.Proof.Defined
