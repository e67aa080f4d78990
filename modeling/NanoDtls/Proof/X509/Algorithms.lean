import NanoDtls.Proof.X509.Signed

/-!
# The two signature algorithms of a certificate

A certificate has two AlgorithmIdentifiers: the `signature` of the
TBSCertificate, after the serial number, and the signatureAlgorithm after the
TBSCertificate. `nd_x509_parse` reads both, and checks the second only. A TLV
is delimited by its own bytes (`parseTlv_append`, `isPrefix_iff`), so the two
agree exactly if the bytes after the serial number begin with the outer one
(`algorithms_agree_iff`); nothing in the parser asks for that
(`algorithms_differ`).
-/

namespace ND.Proof.X509

open ND.Impl X509 Asn1
open Proof.Asn1 Spec.X509

variable {w : Nat}

/-- The AlgorithmIdentifiers where `nd_x509_parse` reads them, and what the TBSCertificate has after its serial number. -/
structure Algorithms where
  afterSerial : Bytes
  inner : Span
  outer : Span
deriving DecidableEq

def algorithms (w : Nat) (der : Bytes) : Result Algorithms := do
  let certTlv ← parseTlv w (.ofBytes der)
  let (tbsTlv, certR) ← (AsnReader.init certTlv.value).next w
  let (sigAlgTlv, _) ← certR.next w
  let outer ← certR.tlvView certR.pos sigAlgTlv
  let tbsR ← skipSerial w (.init tbsTlv.value)
  let (innerSigAlg, _) ← tbsR.next w
  let inner ← tbsR.tlvView tbsR.pos innerSigAlg
  return ⟨tbsR.span.bytes.drop tbsR.pos, inner, outer⟩

/-- The bytes are an AlgorithmIdentifier of ecdsa-with-SHA256. -/
def IsEcdsaWithSha256 (w : Nat) (alg : Bytes) : Prop := ∃ t, parseTlv w (.ofBytes alg) = .ok t ∧ checkSigAlg w t = .ok ()

/-! ## TLVs in front of other bytes -/

theorem readSlice_with_rest {buf b : Bytes} {off n : Nat} (h : readSlice buf off n = .ok b) (rest : Bytes) :
    readSlice (buf ++ rest) off n = .ok b := by
  obtain ⟨hle, hb⟩ := Record.readSlice_eq_ok.mp h
  refine Record.readSlice_eq_ok.mpr ⟨by rw [List.length_append]; omega, ?_⟩
  rw [List.drop_append_of_le_length (by omega), List.take_append_of_le_length (by rw [List.length_drop]; omega), hb]

theorem readAt_with_rest {buf : Bytes} {b : Byte} {i : Nat} (h : readAt buf i = .ok b) (rest : Bytes) :
    readAt (buf ++ rest) i = .ok b := by
  have hlt : i < buf.length := by
    by_contra hge
    rw [readAt, List.getElem?_eq_none (by omega)] at h
    cases h
  rwa [readAt, List.getElem?_append_left hlt, ← readAt]

theorem parseLen_append {off : Nat} {b : Bytes} {len0 : Byte} {pos n : Nat} (h : parseLen w ⟨off, b⟩ len0 = .ok (pos, n))
    (rest : Bytes) : parseLen w ⟨off, b ++ rest⟩ len0 = .ok (pos, n) := by
  by_cases hbit : len0 &&& 0x80 = 0
  · rw [parseLen, if_pos hbit] at h ⊢
    exact h
  · obtain ⟨h0, hle, hlen, octets, hread, rfl, rfl⟩ := (parseLen_eq_ok hbit).mp h
    refine (parseLen_eq_ok hbit).mpr ⟨h0, hle, hlen.trans ?_, octets, readSlice_with_rest hread rest, rfl, rfl⟩
    simp only [Span.len, List.length_append]
    omega

/-- A TLV is parsed the same with more bytes after it. -/
theorem parseTlv_append {off : Nat} {b : Bytes} {t : Tlv} (h : parseTlv w ⟨off, b⟩ = .ok t) (rest : Bytes) :
    parseTlv w ⟨off, b ++ rest⟩ = .ok t := by
  obtain ⟨h2, tag, htag, hlow, len0, hlen0, pos, n, hlen, hwrap, hfit, value, hvalue, rfl⟩ := parseTlv_eq_ok.mp h
  have hmono : Span.len ⟨off, b⟩ ≤ Span.len ⟨off, b ++ rest⟩ := by
    simp only [Span.len, List.length_append]
    omega
  exact parseTlv_eq_ok.mpr ⟨h2.trans hmono, tag, readAt_with_rest htag rest, hlow, len0, readAt_with_rest hlen0 rest, pos, n,
    parseLen_append hlen rest, hwrap, hfit.trans hmono, value, readSlice_with_rest hvalue rest, rfl⟩

/-- The TLV at the start of these bytes has the same size wherever they lie. -/
theorem size_eq_of_parseTlv {b : Bytes} {i j : Nat} {t t' : Tlv} (h : parseTlv w ⟨i, b⟩ = .ok t)
    (h' : parseTlv w ⟨j, b⟩ = .ok t') : t.headerLen + t.value.len = t'.headerLen + t'.value.len := by
  rw [show (⟨i, b⟩ : Span) = (Span.ofBytes b).shift i from rfl, parseTlv_shift, map_eq_ok] at h
  rw [show (⟨j, b⟩ : Span) = (Span.ofBytes b).shift j from rfl, parseTlv_shift, map_eq_ok] at h'
  obtain ⟨t₀, ht, rfl⟩ := h
  obtain ⟨t₁, ht', rfl⟩ := h'
  obtain rfl : t₀ = t₁ := Except.ok.inj (ht.symm.trans ht')
  rfl

/-- Bytes that are one TLV begin others only if they are the first TLV there. -/
theorem isPrefix_iff {alg rest : Bytes} {i j : Nat} {t t' : Tlv} (h : parseTlv w ⟨i, alg⟩ = .ok t)
    (hlen : alg.length = t.headerLen + t.value.len) (h' : parseTlv w ⟨j, rest⟩ = .ok t') :
    alg <+: rest ↔ rest.take (t'.headerLen + t'.value.len) = alg := by
  constructor
  · rintro ⟨more, rfl⟩
    rw [← size_eq_of_parseTlv (parseTlv_append h more) h', ← hlen, List.take_left]
  · intro htake
    rw [← htake]
    exact List.take_prefix _ _

/-! ## Certificates -/

theorem size_le_of_parseTlv {s : Span} {t : Tlv} (h : parseTlv w s = .ok t) : t.headerLen + t.value.len ≤ s.len := by
  obtain ⟨-, -, -, -, -, -, pos, n, -, -, -, value, hvalue, rfl⟩ := parseTlv_eq_ok.mp h
  obtain ⟨hle, hv⟩ := Record.readSlice_eq_ok.mp hvalue
  simp only [Span.len, ← hv, List.length_take, List.length_drop]
  omega

/-- What a reader has read, as a view. -/
theorem next_view {r r' : AsnReader} {t : Tlv} (h : r.next w = .ok (t, r')) : ∃ s, r.tlvView r.pos t = .ok s ∧
    s.bytes = (r.span.bytes.drop r.pos).take (t.headerLen + t.value.len) ∧ s.len = t.headerLen + t.value.len ∧
    parseTlv w ⟨r.span.off + r.pos, r.span.bytes.drop r.pos⟩ = .ok t := by
  simp only [AsnReader.next, Span.sub, bind_eq_ok, failIf_eq_ok, exists_const, pure_eq_ok, Except.ok.injEq,
    Prod.mk.injEq] at h
  obtain ⟨hpos, rest, ⟨b, hb, rfl⟩, t, ht, rfl, -⟩ := h
  obtain ⟨-, hb⟩ := Record.readSlice_eq_ok.mp hb
  rw [List.take_of_length_le (by rw [List.length_drop]; rfl)] at hb
  rw [← hb] at ht
  have hsize := size_le_of_parseTlv ht
  simp only [Span.len, List.length_drop] at hsize hpos
  have hslice : readSlice r.span.bytes r.pos (t.headerLen + t.value.len) =
      .ok ((r.span.bytes.drop r.pos).take (t.headerLen + t.value.len)) :=
    Record.readSlice_eq_ok.mpr ⟨by simp only [Span.len]; omega, rfl⟩
  refine ⟨⟨r.span.off + r.pos, (r.span.bytes.drop r.pos).take (t.headerLen + t.value.len)⟩, ?_, rfl, ?_, ht⟩
  · rw [AsnReader.tlvView, Span.sub, hslice]
    rfl
  · simp only [Span.len, List.length_take, List.length_drop]
    omega

theorem isEcdsaWithSha256_of_checkSigAlg {b : Bytes} {off : Nat} {t : Tlv} (ht : parseTlv w ⟨off, b⟩ = .ok t)
    (h : checkSigAlg w t = .ok ()) : IsEcdsaWithSha256 w b := by
  rw [show (⟨off, b⟩ : Span) = (Span.ofBytes b).shift off from rfl, parseTlv_shift, map_eq_ok] at ht
  obtain ⟨t₀, ht₀, rfl⟩ := ht
  refine ⟨t₀, ht₀, ?_⟩
  rw [← h]
  simp only [checkSigAlg, shiftTlv_value, init_shift, next_shift, bind_map_left, oidEq_shift]
  rfl

/-- In a certificate that is accepted, the two AlgorithmIdentifiers are equal, and both ecdsa-with-SHA256, exactly if what
follows the serial number begins with the outer one. -/
theorem algorithms_agree_iff (w : Nat) (der : Bytes) (c : X509Cert) (h : x509Parse w der = .ok c) :
    ∃ a, algorithms w der = .ok a ∧
      ((a.inner.bytes = a.outer.bytes ∧ IsEcdsaWithSha256 w a.inner.bytes ∧ IsEcdsaWithSha256 w a.outer.bytes) ↔
        a.outer.bytes <+: a.afterSerial) := by
  rw [x509Parse] at h
  simp only [bind_eq_ok, failIf_eq_ok, exists_const, pure_eq_ok, Except.ok.injEq, Prod.exists] at h
  obtain ⟨certTlv, hcert, -, tbsTlv, r₁, hnext, -, _, -, sigAlgTlv, r₂, hsigAlg, ⟨⟩, hcheck, _, _, -, _, _, -, f,
    htbs, -⟩ := h
  rw [parseTbs] at htbs
  simp only [bind_eq_ok, Prod.exists] at htbs
  obtain ⟨tbsR, hserial, innerTlv, _, hinner, -⟩ := htbs
  obtain ⟨outer, houter, houterBytes, houterLen, hparse⟩ := next_view hsigAlg
  obtain ⟨inner, hview, hinnerBytes, -, hparse'⟩ := next_view hinner
  have hwhole := parseTlv_tlvView hsigAlg houter
  refine ⟨⟨tbsR.span.bytes.drop tbsR.pos, inner, outer⟩, ?_, ?_⟩
  · simp only [algorithms, hcert, hnext, hsigAlg, houter, hserial, hinner, hview, ok_bind]
    rfl
  · rw [isPrefix_iff hwhole houterLen hparse', ← hinnerBytes]
    have houterAlg := isEcdsaWithSha256_of_checkSigAlg hwhole hcheck
    constructor
    · rintro ⟨heq, -, -⟩
      exact heq
    · intro heq
      refine ⟨heq, ?_, houterAlg⟩
      rw [heq]
      exact houterAlg

/-- The certificate of `sampleTbs`, where both agree. -/
theorem algorithms_agree_iff_sample : ∃ c a, x509Parse 64 (Spec.X509.certificate sampleTbs 0 0) = .ok c ∧
    algorithms 64 (Spec.X509.certificate sampleTbs 0 0) = .ok a ∧
    ((a.inner.bytes = a.outer.bytes ∧ IsEcdsaWithSha256 64 a.inner.bytes ∧ IsEcdsaWithSha256 64 a.outer.bytes) ↔
      a.outer.bytes <+: a.afterSerial) := by
  obtain ⟨_, _, h⟩ := x509Parse_certificate sampleTbs ⟨beBytes 32 0, by simp⟩ ⟨beBytes 32 0, by simp⟩ (by decide +kernel)
  obtain ⟨a, ha, hiff⟩ := algorithms_agree_iff 64 _ _ h
  exact ⟨_, a, h, ha, hiff⟩

/-- A TBSCertificate whose `signature` is sha256WithRSAEncryption. -/
def rsaTbs : Tbs :=
  { sampleTbs with
    signature :=
      { sampleTbs.signature with value := oid [0x2a, 0x86, 0x48, 0x86, 0xf7, 0x0d, 0x01, 0x01, 0x0b] ++ [0x05, 0x00] } }

/-- It is accepted below ecdsa-with-SHA256. -/
theorem algorithms_differ : ∃ c a, x509Parse 64 (Spec.X509.certificate rsaTbs 0 0) = .ok c ∧
    algorithms 64 (Spec.X509.certificate rsaTbs 0 0) = .ok a ∧ a.inner.bytes ≠ a.outer.bytes ∧
      ¬ IsEcdsaWithSha256 64 a.inner.bytes := by
  obtain ⟨_, _, h⟩ := x509Parse_certificate rsaTbs ⟨beBytes 32 0, by simp⟩ ⟨beBytes 32 0, by simp⟩ (by decide +kernel)
  have halgs : (fun a : Algorithms => (a.inner.bytes, a.outer.bytes)) <$> algorithms 64 (Spec.X509.certificate rsaTbs 0 0) =
      .ok (rsaTbs.signature.encode, sequence (oid Spec.X509.ecdsaWithSha256)) := by
    decide +kernel
  obtain ⟨a, ha, heq⟩ := map_eq_ok.mp halgs
  obtain ⟨hinner, houter⟩ := Prod.mk.inj heq
  refine ⟨_, a, h, ha, ?_, ?_⟩
  · rw [hinner, houter]
    decide
  · rw [hinner]
    rintro ⟨t, ht, hcheck⟩
    have hparse : parseTlv 64 (.ofBytes rsaTbs.signature.encode) = .ok (tlvAt 0x30 2 rsaTbs.signature.value) := by decide
    obtain rfl := Except.ok.inj (hparse.symm.trans ht)
    revert hcheck
    decide

end ND.Proof.X509
