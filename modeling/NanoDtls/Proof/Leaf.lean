import NanoDtls.Proof.Honest
import NanoDtls.Proof.X509.Bounds

/-!
# The leaf that the client returns

The views of `server_leaf` point into the buffer that the Certificate was
unprotected into, and the CertificateVerify and the Finished are unprotected
into the same buffer after it. Each byte of the Certificate message that is
left is one that no later message covers, or that the last one to cover it
has as well (`getElem?_plaintext`); the leaf is intact if this holds of its
TBSCertificate (`leaf_intact_iff`), and in an undisturbed handshake it does
not.
-/

namespace ND.Proof.Leaf

open ND.Impl Client Messages Record Udp X509
open Spec.Client Proof.Client

/-- The bytes that a view denotes in a buffer. -/
def denoted (buf : Bytes) (s : Span) : Bytes := (buf.drop s.off).take s.len

/-- On return, the views of the leaf denote the bytes they had when the leaf was verified. -/
def LeafIntact (result : ClientResult) : Prop :=
  denoted result.plaintext result.serverLeaf.tbsDer = result.serverLeaf.tbsDer.bytes ∧
  denoted result.plaintext result.serverLeaf.issuerDer = result.serverLeaf.issuerDer.bytes ∧
  denoted result.plaintext result.serverLeaf.subjectDer = result.serverLeaf.subjectDer.bytes

/-- The last of the messages after the Certificate that is long enough to have a byte at `k` has the byte
of the Certificate there. -/
def Kept (cert cv fin : Bytes) (k : Nat) : Prop :=
  (k < fin.length → fin[k]? = cert[k]?) ∧ (fin.length ≤ k → k < cv.length → cv[k]? = cert[k]?)

/-- The messages after the Certificate leave the TBSCertificate of the leaf as it is. -/
def Spares {env : Env} {random priv : BytesN 32} {trustAnchor : X509Cert} {atTime : Nat}
    (a : Acceptance env random priv trustAnchor atTime) : Prop :=
  ∀ k, a.leaf.tbsDer.off ≤ k → k < a.leaf.tbsDer.off + a.leaf.tbsDer.len → Kept a.cert a.cv a.fin k

/-! ## The buffer -/

theorem getElem?_overwrite (content buf : Bytes) (k : Nat) :
    (overwrite content buf)[k]? = if k < content.length then content[k]? else buf[k]? := by
  rw [overwrite, List.getElem?_append]
  split
  · rfl
  · rw [List.getElem?_drop]
    congr 1
    omega

/-- The buffer after the three messages, where the Certificate was. -/
theorem getElem?_plaintext {cert cv fin buf : Bytes} {k : Nat} (hk : k < cert.length) :
    (overwrite fin (overwrite cv (overwrite cert buf)))[k]? = cert[k]? ↔ Kept cert cv fin k := by
  rw [getElem?_overwrite, getElem?_overwrite, getElem?_overwrite, if_pos hk, Kept]
  by_cases hfin : k < fin.length
  · rw [if_pos hfin]
    exact ⟨fun h => ⟨fun _ => h, fun hle => absurd hfin (by omega)⟩, fun h => h.1 hfin⟩
  · rw [if_neg hfin]
    by_cases hcv : k < cv.length
    · rw [if_pos hcv]
      exact ⟨fun h => ⟨fun hlt => absurd hlt hfin, fun _ _ => h⟩, fun h => h.2 (by omega) hcv⟩
    · rw [if_neg hcv]
      exact ⟨fun _ => ⟨fun hlt => absurd hlt hfin, fun _ hlt => absurd hlt hcv⟩, fun _ => rfl⟩

theorem denoted_eq_iff {buf : Bytes} {s : Span} :
    denoted buf s = s.bytes ↔ ∀ i < s.len, buf[s.off + i]? = s.bytes[i]? := by
  constructor
  · intro heq i hi
    rw [← heq, denoted, List.getElem?_take_of_lt hi, List.getElem?_drop]
  · intro hagree
    apply List.ext_getElem?
    intro i
    rw [denoted]
    by_cases hi : i < s.len
    · rw [List.getElem?_take_of_lt hi, List.getElem?_drop, hagree i hi]
    · rw [List.getElem?_eq_none (by rw [List.length_take]; omega), List.getElem?_eq_none (Nat.le_of_not_lt hi)]

/-- A view of `b` denotes its own bytes in another buffer iff the two agree where it points. -/
theorem denoted_eq_iff_of_inside {b buf : Bytes} {s : Span} (h : Inside (.ofBytes b) s) :
    denoted buf s = s.bytes ↔ ∀ k, s.off ≤ k → k < s.off + s.len → buf[k]? = b[k]? := by
  obtain ⟨off, hoff, hs⟩ := h
  have hbyte : ∀ i < s.len, s.bytes[i]? = b[s.off + i]? := by
    intro i hi
    rw [hs.getElem?_eq hi, hoff]
    simp only [Span.ofBytes, Nat.zero_add]
  rw [denoted_eq_iff]
  constructor
  · intro hagree k hle hlt
    obtain ⟨i, rfl⟩ := Nat.exists_eq_add_of_le hle
    rw [hagree i (by omega), hbyte i (by omega)]
  · intro hagree i hi
    rw [hagree _ (by omega) (by omega), hbyte i hi]

/-! ## The views -/

theorem recordUnprotect_length {u u' : RecordUnprotection} {d content : Bytes} {ct : Byte} {cap : Nat}
    (h : recordUnprotect u d cap = .ok (content, ct, u')) : content.length ≤ cap := by
  simp only [recordUnprotect, bind_eq_ok, failIf_eq_ok, exists_const, Prod.exists, pure_eq_ok, Except.ok.injEq,
    Prod.mk.injEq] at h
  obtain ⟨_, _, _, _, _, _, _, _, _, _, _, _, _, _, hcap, rfl, _⟩ := h
  omega

variable {env : Env} {random priv : BytesN 32} {trustAnchor : X509Cert} {atTime : Nat}

/-- The TBSCertificate of the leaf lies in the Certificate message, and its names in it. -/
theorem leaf_inside (a : Acceptance env random priv trustAnchor atTime) :
    Inside (.ofBytes a.cert) a.leaf.tbsDer ∧ Inside a.leaf.tbsDer a.leaf.issuerDer ∧
      Inside a.leaf.tbsDer a.leaf.subjectDer := by
  obtain ⟨_, _, hopen⟩ := a.cert_opens
  have hlen := recordUnprotect_length hopen
  obtain ⟨_, hparse, _⟩ := a.cert_message
  have hbody := (Parsers.handshakeParse_ensures a.cert).2 _ hparse
  have hbodylen : a.certBody.bytes.length ≤ a.cert.length := hbody.len_le
  obtain ⟨_, hders⟩ := (Parsers.certificateParse_ensures (show a.certBody.bytes.length < 2 ^ 31 by omega)).2 _ a.cert_parse
  obtain ⟨der, _, ⟨parsed, hparsed, hleaf⟩, _, hlist⟩ := List.forall₂_cons_right_iff.mp a.chain_parse
  rw [hlist] at hders
  have hder : Inside (.ofBytes a.certBody.bytes) der := hders.inside der List.mem_cons_self
  have hderlen : der.bytes.length ≤ a.certBody.bytes.length := hder.len_le
  obtain ⟨htbs, hissuer, hsubject⟩ := (X509.x509Parse_ensures (show der.bytes.length < 2 ^ 64 by omega)).2 _ hparsed
  rw [hleaf]
  refine ⟨?_, hissuer.shift _, hsubject.shift _⟩
  have hplace : Inside a.certBody (der.shift a.certBody.off) := hder.shift a.certBody.off
  exact hbody.trans (hplace.trans (htbs.shift _))

/-! ## The leaf on return -/

theorem clientHandshake_eq_ok {random priv : Option (BytesN 32)} {result : ClientResult} :
    exec env (clientHandshake random priv trustAnchor atTime) = .ok result ↔
      ∃ f c, Action.run env.answer (clientFlight random priv trustAnchor atTime) ⟨0, 0⟩ = (.ok f, c) ∧
        env.sends c.sent = true ∧ result = ⟨f.session.keys, f.leaf, f.session.plaintext⟩ := by
  simp only [exec_eq_ok, clientHandshake, Action.run_bind_eq_ok, run_udpSend_eq_ok, run_pure_eq_ok]
  constructor
  · intro h
    rcases h with ⟨_, f, c, hf, _, _, ⟨hsend, _⟩, hresult, _⟩
    exact ⟨f, c, hf, hsend, hresult⟩
  · intro h
    rcases h with ⟨f, c, hf, hsend, hresult⟩
    exact ⟨_, f, c, hf, (), _, ⟨hsend, rfl⟩, hresult, rfl⟩

/-- The leaf of an accepted run is intact iff the later messages spare its TBSCertificate. -/
theorem intact_flightOf (a : Acceptance env random priv trustAnchor atTime) (keys : Impl.Handshake.HandshakeKeys) :
    LeafIntact ⟨keys, a.leaf, (sessionAfter a).plaintext⟩ ↔ Spares a := by
  obtain ⟨htbs, hissuer, hsubject⟩ := leaf_inside a
  have hend := htbs.off_le.2
  simp only [Span.ofBytes, Nat.zero_add] at hend
  have hspares : denoted (sessionAfter a).plaintext a.leaf.tbsDer = a.leaf.tbsDer.bytes ↔ Spares a := by
    rw [denoted_eq_iff_of_inside htbs, Spares]
    refine forall_congr' fun k => forall_congr' fun _ => forall_congr' fun hlt => ?_
    exact getElem?_plaintext (Nat.lt_of_lt_of_le hlt hend)
  -- a name is part of the TBSCertificate, and intact with it
  have hname : ∀ s, Inside a.leaf.tbsDer s → denoted (sessionAfter a).plaintext a.leaf.tbsDer = a.leaf.tbsDer.bytes →
      denoted (sessionAfter a).plaintext s = s.bytes := by
    intro s hs hintact
    rw [denoted_eq_iff_of_inside htbs] at hintact
    rw [denoted_eq_iff_of_inside (htbs.trans hs)]
    intro k hle hlt
    have hsub := hs.off_le
    exact hintact k (by omega) (by omega)
  rw [LeafIntact, ← hspares]
  exact ⟨fun h => h.1, fun h => ⟨h, hname _ hissuer h, hname _ hsubject h⟩⟩

/-- For every run in which `nd_client_handshake` succeeds, whatever it received: on return, the leaf is intact
exactly if the messages after the Certificate spare it. -/
theorem leaf_intact_iff (env : Env) (random priv : Option (BytesN 32)) (trustAnchor : X509Cert) (atTime : Nat)
    (result : ClientResult) (h : exec env (clientHandshake random priv trustAnchor atTime) = .ok result) :
    ∃ r k, random = some r ∧ priv = some k ∧ ∃ a : Acceptance env r k trustAnchor atTime,
      result.serverLeaf = a.leaf ∧ (LeafIntact result ↔ Spares a) := by
  obtain ⟨f, c, hf, _, rfl⟩ := clientHandshake_eq_ok.mp h
  match random, priv with
  | none, _ => cases hf
  | some _, none => cases hf
  | some r, some k =>
    obtain ⟨a, rfl, _⟩ := run_clientFlight.mp hf
    exact ⟨r, k, rfl, rfl, a, rfl, intact_flightOf a _⟩

/-! ## An undisturbed handshake -/

theorem getElem?_handshake (msgType : Byte) (messageSeq : Nat) (body : Bytes) (i : Nat) :
    (Spec.Wire.handshake msgType messageSeq body)[12 + i]? = body[i]? := by
  rw [Spec.Wire.handshake, List.getElem?_append_right (by simp)]
  simp

theorem getElem?_tlv (tag : Byte) {value : Bytes} (h : value.length < 128) (i : Nat) :
    (Spec.X509.tlv tag value)[2 + i]? = value[i]? := by
  rw [Spec.X509.tlv, Asn1.lengthOctets_short h, List.getElem?_append_right (by simp)]
  simp

/-- The bytes of `r` in the CertificateVerify. -/
theorem getElem?_cv (p : Honest.Parties) {i : Nat} (hi : i < (Asn1.integerContent p.r).length) :
    p.cv[20 + i]? = (Asn1.integerContent p.r)[i]? := by
  have hbody := Asn1.length_signatureBody p.r p.s
  have hr := Asn1.length_integerContent p.r
  have hcv : p.cv[12 + (4 + (2 + (2 + i)))]? = (Asn1.signatureDer p.r p.s)[2 + (2 + i)]? := by
    rw [Honest.Parties.cv, getElem?_handshake, Spec.Wire.certificateVerify, Spec.Wire.vec, ← List.append_assoc,
      List.getElem?_append_right (by simp)]
    simp
  have hlen : 2 + i < (Spec.X509.tlv Impl.Asn1.tagInteger (Asn1.integerContent p.r)).length := by
    rw [Asn1.length_tlv, Asn1.headerLen_short (by omega)]
    omega
  rw [show 20 + i = 12 + (4 + (2 + (2 + i))) by omega, hcv, Asn1.signatureDer, getElem?_tlv _ (by omega),
    List.getElem?_append_left hlen, getElem?_tlv _ (by omega)]

/-- Byte 24 of `r`, in the signatures of the sample server. -/
theorem getElem?_sampleSign (hash : BytesN 32) :
    (Asn1.integerContent (Honest.sampleSign hash).1)[24]? = some 0xa6 ∨
      (Asn1.integerContent (Honest.sampleSign hash).1)[24]? = some 0xf4 := by
  rw [Honest.sampleSign, P256.Signer.sign]
  split
  · exact .inl (show (Asn1.integerContent (Honest.toBytes P256.Signer.x2))[24]? = some 0xa6 by decide +kernel)
  · exact .inr (show (Asn1.integerContent (Honest.toBytes Spec.Ecdsa.gx))[24]? = some 0xf4 by decide +kernel)

/-- A client and a server that succeed: the leaf that the client returns is not intact. -/
theorem leaf_overwritten : ∃ env result,
    exec env (clientHandshake (some (zeros 32)) (some (zeros 32)) Honest.sampleAnchor 20300101000000) = .ok result ∧
      ¬ LeafIntact result := by
  obtain ⟨i, j, hserves⟩ := Honest.sample_serves
  obtain ⟨p, hash, _, hsign, hc, _⟩ :=
    Honest.exec_honest hserves (zeros 32) (zeros 32) (zeros 32) (zeros 32) X25519.x25519_zeros_ne
  obtain ⟨c, hrun⟩ := exec_eq_ok.mp hc
  refine ⟨_, _, clientHandshake_eq_ok.mpr ⟨_, c, hrun, rfl, rfl⟩, ?_⟩
  intro hx
  rcases hx with ⟨htbs, _⟩
  -- byte 21 of the TBSCertificate is at 44 in the buffer, where the Finished ends
  have hbyte := denoted_eq_iff.mp htbs 21 (show 21 < X509.sampleTbs.encode.length by decide +kernel)
  have hfin : p.fin.length = 44 := by rw [Honest.Parties.fin, Proof.Handshake.length_handshake, BytesN.length_eq]
  have htbsByte : X509.sampleTbs.encode[21]? = some 0x03 := by decide +kernel
  have hr : p.r = (Honest.sampleSign hash).1 := (congrArg Prod.fst (Except.ok.inj hsign)).symm
  have hsample := getElem?_sampleSign hash
  rw [← hr] at hsample
  have hlt : 24 < (Asn1.integerContent p.r).length := by
    by_contra hge
    rw [List.getElem?_eq_none (by omega)] at hsample
    rcases hsample with h | h <;> cases h
  have hcv := getElem?_cv p hlt
  have hcvlen : 44 < p.cv.length := by
    by_contra hge
    rw [List.getElem?_eq_none (by omega), List.getElem?_eq_getElem hlt] at hcv
    cases hcv
  have hover : (Honest.clientSession p).plaintext[44]? = p.cv[44]? := by
    rw [show (Honest.clientSession p).plaintext = overwrite p.fin (overwrite p.cv (overwrite p.cert _)) from rfl,
      getElem?_overwrite, if_neg (by omega), getElem?_overwrite, if_pos hcvlen]
  rw [show ((Honest.sampleLeaf i j).shift 19).tbsDer = ⟨23, X509.sampleTbs.encode⟩ from rfl] at hbyte
  simp only [htbsByte, hover, hcv] at hbyte
  rw [hbyte] at hsample
  revert hsample
  decide

/-- The run of an undisturbed handshake is one that succeeds. -/
theorem leaf_intact_iff_sample : ∃ env result,
    exec env (clientHandshake (some (zeros 32)) (some (zeros 32)) Honest.sampleAnchor 20300101000000) = .ok result ∧
      ∃ a : Acceptance env (zeros 32) (zeros 32) Honest.sampleAnchor 20300101000000,
        result.serverLeaf = a.leaf ∧ (LeafIntact result ↔ Spares a) := by
  obtain ⟨i, j, hserves⟩ := Honest.sample_serves
  obtain ⟨p, _, _, _, hc, _⟩ :=
    Honest.exec_honest hserves (zeros 32) (zeros 32) (zeros 32) (zeros 32) X25519.x25519_zeros_ne
  obtain ⟨c, hrun⟩ := exec_eq_ok.mp hc
  have h := clientHandshake_eq_ok.mpr ⟨_, c, hrun, rfl, rfl⟩
  obtain ⟨_, _, hrandom, hpriv, ha⟩ := leaf_intact_iff _ _ _ _ _ _ h
  cases hrandom
  cases hpriv
  exact ⟨_, _, h, ha⟩

end ND.Proof.Leaf
