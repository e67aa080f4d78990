import NanoDtls.Impl.Messages
import NanoDtls.Proof.Wire
import NanoDtls.Spec.Wire

/-!
# The protected messages, written and read back

The Certificate message (`certificate_round_trip`: the certificates come
back, whatever they are and whatever stands between them) and the
CertificateVerify around a signature. The other way around, what a parser accepts has the
fields of its message at the front (`exists_certificateFrame`), and two
parsers also look at the end (`exists_encryptedExtensions`,
`exists_certificateVerify`).
-/

namespace ND.Proof.Messages

open ND.Impl Messages Asn1
open Spec.Wire Proof.Wire Proof.Record
open Spec.Grammar (Opaque EntryFrame CertificateFrame)

/-! ## Certificate -/

theorem writes_certificateEntry (der : Bytes) :
    Writes (fun w => Messages.certificateEntry w der) (Spec.Wire.certificateEntry der) :=
  (((writes_bytes der).withLen 3).comp (writes_id.withLen 2)).of_eq rfl

theorem writes_certificateEntries : ∀ certs : List Bytes,
    Writes (fun w => certs.foldl Messages.certificateEntry w) (certs.flatMap Spec.Wire.certificateEntry)
  | [] => writes_id
  | der :: certs => ((writes_certificateEntry der).comp (writes_certificateEntries certs)).of_eq rfl

theorem writes_certificate (certs : List Bytes) :
    Writes (fun w => Writer.withLen 3 (fun w => certs.foldl Messages.certificateEntry w) (Writer.u8 0 w))
      (certificate certs) :=
  ((writes_u8 0).comp ((writes_certificateEntries certs).withLen 3)).of_eq rfl

theorem length_certificateEntries : ∀ certs : List Bytes,
    (certs.flatMap Spec.Wire.certificateEntry).length = (certs.map fun der => der.length + 5).sum
  | [] => rfl
  | der :: certs => by
    rw [List.flatMap_cons, List.length_append, length_certificateEntries certs, List.map_cons, List.sum_cons]
    simp only [Spec.Wire.certificateEntry, List.length_append, length_vec, List.length_nil]
    omega

theorem length_certificate (certs : List Bytes) :
    (certificate certs).length = 4 + (certs.map fun der => der.length + 5).sum := by
  rw [certificate, List.length_append, length_vec, length_vec, length_certificateEntries, List.length_nil]
  omega

theorem certificateSerialize_eq_finish {certs : List Bytes} {cap : Nat} (h0 : certs ≠ []) (h4 : certs.length ≤ 4) :
    certificateSerialize certs cap = Writer.finish
      (Writer.withLen 3 (fun w => certs.foldl Messages.certificateEntry w) (Writer.u8 0 (Writer.init cap))) := by
  rw [certificateSerialize, failIf_bind]
  rw [List.length_eq_zero_iff, certificateMsgMaxCerts, not_or]
  exact ⟨h0, by omega⟩

/-- `nd_certificate_serialize` of a list that it takes, into a buffer that is large enough. -/
theorem certificateSerialize_eq {certs : List Bytes} {cap : Nat} (h0 : certs ≠ []) (h4 : certs.length ≤ 4)
    (hcap : cap < 2 ^ 64) (hlen : (certificate certs).length ≤ cap) :
    certificateSerialize certs cap = .ok (certificate certs) := by
  rw [certificateSerialize_eq_finish h0 h4]
  exact (writes_certificate certs).finish hcap hlen

theorem length_le_of_certificateSerialize {certs : List Bytes} {cap : Nat} {body : Bytes} (hcap : cap < 2 ^ 64)
    (h : certificateSerialize certs cap = .ok body) : body.length ≤ cap := by
  by_cases hcount : certs.length = 0 ∨ certificateMsgMaxCerts < certs.length
  · rw [certificateSerialize, failIf, if_pos hcount] at h
    cases h
  · rw [certificateSerialize, failIf_bind hcount] at h
    exact (writes_certificate certs).length_le_of_finish hcap h

theorem length_certificate_le {certs : List Bytes} (h4 : certs.length ≤ 4) :
    (certificate certs).length ≤ 24 + (certs.map List.length).sum := by
  rw [length_certificate, List.sum_map_add, List.map_const', List.sum_replicate_nat]
  omega

/-- `nd_certificate_serialize` of certificates whose sizes do not wrap around. -/
theorem certificateSerialize_eq_ite {certs : List Bytes} {cap : Nat} (h0 : certs ≠ []) (h4 : certs.length ≤ 4)
    (hsize : (certs.map List.length).sum < 2 ^ 63) (hcap : cap < 2 ^ 64) : certificateSerialize certs cap =
      if (certificate certs).length ≤ cap then .ok (certificate certs) else .error .badLength := by
  have hlen := length_certificate_le h4
  rw [certificateSerialize_eq_finish h0 h4]
  exact (writes_certificate certs).finish_eq hcap (by omega)

theorem encode_entry_ne_nil (e : EntryFrame) : e.encode ≠ [] := by
  refine List.ne_nil_of_length_pos ?_
  rw [EntryFrame.encode, List.length_append, length_vec]
  omega

/-- The loop over the entries: the certificates, after those it has already. It skips the extensions. -/
theorem certificateLoop_eq : ∀ (entries : List EntryFrame) (fuel : Nat) (acc : List Span) (r : Reader),
    At r (entries.flatMap EntryFrame.encode) → entries.length < fuel → acc.length + entries.length ≤ 4 →
    ∃ spans : List Span, certificateLoop fuel acc r = .ok (acc ++ spans) ∧
      spans.map Span.bytes = entries.map (·.certData.1) ∧ ∀ s ∈ spans.head?, s.off = r.span.off + (r.pos + 3)
  | [], fuel + 1, acc, r, h, _, _ => by
    refine ⟨[], ?_, rfl, nofun⟩
    rw [certificateLoop, if_neg (fun hm => h.more.mp hm rfl), List.append_nil]
  | e :: entries, fuel + 1, acc, r, h, hfuel, hacc => by
    simp only [List.length_cons] at hfuel hacc
    rw [List.flatMap_cons] at h
    have hmore := h.more.mpr (List.append_ne_nil_of_left_ne_nil (encode_entry_ne_nil e) _)
    rw [EntryFrame.encode, List.append_assoc] at h
    obtain ⟨hcert, hcert', -, h⟩ := h.vector .truncated .badLength
    obtain ⟨hext, -, hext', h⟩ := h.vector .truncated .badLength
    obtain ⟨spans, hloop, hspans, -⟩ := certificateLoop_eq entries fuel (acc ++ [⟨r.span.off + (r.pos + 3), e.certData.1⟩]) _ h
      (by omega) (by simp only [List.length_append, List.length_singleton]; omega)
    refine ⟨⟨r.span.off + (r.pos + 3), e.certData.1⟩ :: spans, ?_, by rw [List.map_cons, List.map_cons, hspans], ?_⟩
    · rw [certificateLoop, if_pos hmore, failIf_bind (by rw [certificateMsgMaxCerts]; omega)]
      simp only [Reader.u24, Reader.u16, hcert, hcert', hext, hext', ok_bind, storeCert,
        if_pos (show acc.length < certificateMsgMaxCerts by rw [certificateMsgMaxCerts]; omega)]
      rw [List.append_assoc] at hloop
      exact hloop
    · intro s hs
      cases hs
      rfl

/-- The checks of `nd_certificate_parse`, once it has the list. -/
def certificateChecks (listData : Span) : Result (List Span) := do
  let certs ← certificateLoop (listData.len + 1) [] (.init listData)
  failIf (certs.length = 0) .badArg
  return certs

/-- `nd_certificate_parse` of the fields of a Certificate message, with anything behind them. -/
theorem certificateParse_frame (m : CertificateFrame) {tail : Bytes} (hlt : (m.encode ++ tail).length < 2 ^ 64) :
    certificateParse (m.encode ++ tail) =
      certificateChecks ⟨0 + (0 + 1 + m.requestContext.1.length + 3), m.certificateList.1⟩ := by
  have h := at_init 0 hlt
  simp only [certificateParse, Span.ofBytes]
  generalize hr : Reader.init ⟨0, m.encode ++ tail⟩ = r at h ⊢
  rw [CertificateFrame.encode, List.append_assoc] at h
  obtain ⟨hctx, -, hctx', h⟩ := h.vector .truncated .badLength
  obtain ⟨hlist, hlist', -, -⟩ := h.vector .truncated .badLength
  simp only [Reader.u8, Reader.u24, hctx, hctx', hlist, hlist', ok_bind]
  rw [← hr]
  rfl

/-- `nd_certificate_parse` of a Certificate message: the certificates, in order, the first one behind the context and
the lengths of the list and itself. -/
theorem certificateParse_entries (ctx : Opaque 1) {entries : List EntryFrame} (h0 : entries ≠ []) (h4 : entries.length ≤ 4)
    (hlist : (entries.flatMap EntryFrame.encode).length < 256 ^ 3) :
    ∃ spans : List Span, certificateParse (vec 1 ctx.1 ++ vec 3 (entries.flatMap EntryFrame.encode)) = .ok spans ∧
      spans.map Span.bytes = entries.map (·.certData.1) ∧ ∀ s ∈ spans.head?, s.off = 7 + ctx.1.length := by
  have hcount : entries.length ≤ (entries.flatMap EntryFrame.encode).length := by
    rw [List.length_flatMap, ← List.length_map (fun e => (EntryFrame.encode e).length)]
    refine List.length_le_sum_of_one_le _ ?_
    intro n hn
    obtain ⟨e, -, rfl⟩ := List.mem_map.mp hn
    exact List.length_pos_iff.mpr (encode_entry_ne_nil e)
  have hframe := @certificateParse_frame ⟨ctx, ⟨entries.flatMap EntryFrame.encode, hlist⟩⟩ [] (by
    have hctx := ctx.2
    simp only [CertificateFrame.encode, List.length_append, length_vec, List.length_nil]
    omega)
  rw [List.append_nil, CertificateFrame.encode] at hframe
  obtain ⟨spans, hloop, hspans, hhead⟩ := certificateLoop_eq entries ((entries.flatMap EntryFrame.encode).length + 1) []
    _ (at_init (0 + (0 + 1 + ctx.1.length + 3)) (hlist.trans (by decide))) (by omega) (by simpa using h4)
  have hne : spans.length ≠ 0 := by
    rw [← List.length_map Span.bytes, hspans, List.length_map, List.length_eq_zero_iff.ne]
    exact h0
  refine ⟨spans, hframe.trans ((congrArg (· >>= _) hloop).trans (failIf_bind hne)), hspans, ?_⟩
  intro s hs
  rw [hhead s hs]
  simp only [Reader.init]
  omega

/-- The entries of certificates without extensions. -/
theorem exists_entries : ∀ {certs : List Bytes}, (∀ der ∈ certs, der.length < 256 ^ 3) →
    ∃ entries : List EntryFrame, entries.map (·.certData.1) = certs ∧
      entries.flatMap EntryFrame.encode = certs.flatMap Spec.Wire.certificateEntry
  | [], _ => ⟨[], rfl, rfl⟩
  | der :: certs, h => by
    obtain ⟨entries, hcerts, hbytes⟩ := exists_entries fun d hd => h d (List.mem_cons_of_mem _ hd)
    refine ⟨⟨⟨der, h der List.mem_cons_self⟩, ⟨[], by decide⟩⟩ :: entries, by rw [List.map_cons, hcerts], ?_⟩
    rw [List.flatMap_cons, List.flatMap_cons, hbytes]
    rfl

/-- `nd_certificate_parse` of what `nd_certificate_serialize` writes. -/
theorem certificateParse_eq {certs : List Bytes} (h0 : certs ≠ []) (h4 : certs.length ≤ 4)
    (hlen : (certificate certs).length < 256 ^ 3) :
    ∃ spans : List Span, certificateParse (certificate certs) = .ok spans ∧ spans.map Span.bytes = certs ∧
      ∀ s ∈ spans.head?, s.off = 7 := by
  rw [length_certificate] at hlen
  have hder : ∀ der ∈ certs, der.length < 256 ^ 3 := by
    intro der hd
    have := List.single_le_sum (l := certs.map fun der => der.length + 5) (by simp) _ (List.mem_map_of_mem hd)
    omega
  obtain ⟨entries, rfl, hbytes⟩ := exists_entries hder
  have hlist : (entries.flatMap EntryFrame.encode).length < 256 ^ 3 := by
    rw [hbytes, length_certificateEntries]
    omega
  have hparse := certificateParse_entries ⟨[], by decide⟩ (List.map_eq_nil_iff.ne.mp h0) (by simpa using h4) hlist
  rwa [hbytes] at hparse

/-- A Certificate message is written if it fits its buffer, and read back. The certificates are the same whatever the
request context and the extensions of the entries are. -/
theorem certificate_round_trip (certs : List Bytes) (cap : Nat) (h1 : 1 ≤ certs.length) (h4 : certs.length ≤ 4)
    (hsize : (certs.map List.length).sum < 2 ^ 63) (hcap : cap < 2 ^ 24) :
    ((∃ out, certificateSerialize certs cap = .ok out) ↔ 4 + (certs.map fun der => der.length + 5).sum ≤ cap) ∧
    (∀ out, certificateSerialize certs cap = .ok out → out = certificate certs ∧
      ∃ spans : List Span, certificateParse out = .ok spans ∧ spans.map Span.bytes = certs) ∧
    (∀ (ctx : Opaque 1) (entries : List EntryFrame), entries.map (·.certData.1) = certs →
      (entries.flatMap EntryFrame.encode).length < 256 ^ 3 →
      ∃ spans : List Span, certificateParse (vec 1 ctx.1 ++ vec 3 (entries.flatMap EntryFrame.encode)) = .ok spans ∧
        spans.map Span.bytes = certs) := by
  have h0 : certs ≠ [] := List.ne_nil_of_length_pos h1
  have hser := certificateSerialize_eq_ite h0 h4 hsize (show cap < 2 ^ 64 by omega)
  rw [← length_certificate]
  refine ⟨?_, ?_, ?_⟩
  · rw [hser]
    split
    · rename_i hle
      exact iff_of_true ⟨_, rfl⟩ hle
    · rename_i hlt
      exact iff_of_false nofun hlt
  · intro out hout
    rw [hser] at hout
    split at hout
    · rename_i hle
      obtain rfl := Except.ok.inj hout
      obtain ⟨spans, hparse, hspans, -⟩ := certificateParse_eq h0 h4 (show (certificate certs).length < 256 ^ 3 by omega)
      exact ⟨rfl, spans, hparse, hspans⟩
    · cases hout
  · intro ctx entries hcerts hlist
    subst hcerts
    obtain ⟨spans, hparse, hspans, -⟩ :=
      certificateParse_entries ctx (List.map_eq_nil_iff.ne.mp h0) (by simpa using h4) hlist
    exact ⟨spans, hparse, hspans⟩

/-- What `nd_certificate_parse` accepts has the fields of a Certificate message at its front. -/
theorem exists_certificateFrame {buf : Bytes} {certs : List Span} (hlt : buf.length < 2 ^ 64)
    (hp : certificateParse buf = .ok certs) :
    ∃ (m : CertificateFrame) (tail : Bytes), buf = m.encode ++ tail := by
  simp only [certificateParse, bind_eq_ok, Prod.exists] at hp
  obtain ⟨_, _, hctx, _, hctx', _, _, hlen, _, _, hview, -⟩ := hp
  obtain ⟨ctx, _, rfl, h₁⟩ := (at_init 0 hlt).of_vector_skip hctx hctx'
  obtain ⟨list, tail, -, rfl, -⟩ := h₁.of_vector hlen hview
  exact ⟨⟨ctx, list⟩, tail, by rw [CertificateFrame.encode, List.append_assoc]⟩

theorem certificate_round_trip_sample :
    ∃ spans : List Span, certificateParse (vec 1 [9] ++ vec 3 (vec 3 [1, 2] ++ vec 2 [7])) = .ok spans ∧
      spans.map Span.bytes = [[1, 2]] :=
  (certificate_round_trip [[1, 2]] 11 (by decide) (by decide) (by decide) (by decide)).2.2
    ⟨[9], by decide⟩ [⟨⟨[1, 2], by decide⟩, ⟨[7], by decide⟩⟩] rfl (by decide)

/-! ## EncryptedExtensions -/

/-- What `nd_encrypted_extensions_parse` accepts is one vector. -/
theorem exists_encryptedExtensions {buf : Bytes} (hlt : buf.length < 2 ^ 64)
    (hp : encryptedExtensionsParse buf = .ok ()) : ∃ block : Opaque 2, buf = vec 2 block.1 := by
  simp only [encryptedExtensionsParse, bind_eq_ok, Prod.exists, failIf_eq_ok, not_not] at hp
  obtain ⟨_, _, hlen, _, hskip, hend⟩ := hp
  obtain ⟨block, tail, rfl, h⟩ := (at_init 0 hlt).of_vector_skip hlen hskip
  exact ⟨block, by rw [h.pos_eq_len.mp hend, List.append_nil]⟩

/-! ## CertificateVerify -/

/-- `nd_certificate_verify_parse` of what the server sends. -/
theorem certificateVerifyParse_eq {signature : Bytes} (hlen : signature.length < 256 ^ 2) :
    ∃ off, certificateVerifyParse (certificateVerify signature) = .ok ⟨0x0403, ⟨off, signature⟩⟩ := by
  have h := at_init (b := certificateVerify signature) 0 (by
    simp only [certificateVerify, List.length_append, length_beBytes, length_vec]
    omega)
  simp only [certificateVerifyParse, Span.ofBytes]
  generalize Reader.init ⟨0, certificateVerify signature⟩ = r at h ⊢
  rw [← List.append_nil (certificateVerify signature), certificateVerify, List.append_assoc] at h
  obtain ⟨halg, h⟩ := h.uint .truncated (by decide)
  obtain ⟨hll, hview, -, h⟩ := h.vector (b := ⟨signature, hlen⟩) .truncated .badLength
  refine ⟨(advance r 2).span.off + ((advance r 2).pos + 2), ?_⟩
  simp only [Reader.u16, halg, hll, hview, ok_bind]
  exact failIf_bind (not_not.mpr (h.pos_eq_len.mpr rfl))

/-- What `nd_certificate_verify_parse` accepts is a CertificateVerify. -/
theorem exists_certificateVerify {buf : Bytes} {msg : CertificateVerifyMsg} (hlt : buf.length < 2 ^ 64)
    (hp : certificateVerifyParse buf = .ok msg) : ∃ m : Spec.Grammar.CertificateVerify, buf = m.encode := by
  simp only [certificateVerifyParse, bind_eq_ok, Prod.exists, failIf_eq_ok, exists_const, not_not] at hp
  obtain ⟨_, _, halg, _, _, hlen, _, _, hview, hend, -⟩ := hp
  obtain ⟨alg, _, -, rfl, h₁⟩ := (at_init 0 hlt).of_u16 halg
  obtain ⟨sig, tail, -, rfl, h₂⟩ := h₁.of_vector hlen hview
  refine ⟨⟨alg, sig⟩, ?_⟩
  rw [h₂.pos_eq_len.mp hend, List.append_nil, Spec.Grammar.CertificateVerify.encode]

end ND.Proof.Messages
