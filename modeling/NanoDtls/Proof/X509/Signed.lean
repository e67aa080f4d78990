import NanoDtls.Proof.X509

/-!
# What is parsed comes from what is signed

The fields of a certificate are a function of the bytes of its
TBSCertificate. A parser does not depend on where its input lies: moved by
`k` bytes, it gives the same result with its views moved by `k`
(`parseTlv_shift`, `next_shift`, `parseTbs_shift`). And a TLV is parsed from
its own bytes, whatever comes after them (`parseTlv_take`).
-/

namespace ND.Proof.X509

open ND.Impl ND.Impl.X509 ND.Impl.Asn1

variable {w : Nat} (k : Nat)

/-! ## The same views elsewhere -/

/-- A TLV of an input that is itself `k` bytes into another one, and a reader of it. -/
def shiftTlv (t : Tlv) : Tlv := { t with value := t.value.shift k }

def shiftReader (r : AsnReader) : AsnReader := { r with span := r.span.shift k }

def shiftFields (f : TbsFields) : TbsFields :=
  { f with issuerDer := f.issuerDer.shift k, subjectDer := f.subjectDer.shift k }

theorem sub_shift (s : Span) (off n : Nat) : (s.shift k).sub off n = Span.shift k <$> s.sub off n := by
  simp only [Span.sub, map_bind, map_pure, Span.shift, Nat.add_assoc]

theorem parseTlv_shift (s : Span) : parseTlv w (s.shift k) = shiftTlv k <$> parseTlv w s := by
  simp only [parseTlv, sub_shift, map_bind, bind_map_left, map_pure]
  rfl

theorem next_shift (r : AsnReader) :
    (shiftReader k r).next w = (fun x => (shiftTlv k x.1, shiftReader k x.2)) <$> r.next w := by
  simp only [AsnReader.next, shiftReader, sub_shift, parseTlv_shift, map_bind, bind_map_left, map_pure]
  rfl

theorem tlvView_shift (r : AsnReader) (start : Nat) (t : Tlv) :
    (shiftReader k r).tlvView start (shiftTlv k t) = Span.shift k <$> r.tlvView start t :=
  sub_shift k _ _ _

@[simp] theorem init_shift (s : Span) : AsnReader.init (s.shift k) = shiftReader k (.init s) := rfl

@[simp] theorem shiftTlv_value (t : Tlv) : (shiftTlv k t).value = t.value.shift k := rfl

@[simp] theorem shiftTlv_tag (t : Tlv) : (shiftTlv k t).tag = t.tag := rfl

@[simp] theorem shift_bytes (s : Span) : (s.shift k).bytes = s.bytes := rfl

@[simp] theorem shift_len (s : Span) : (s.shift k).len = s.len := rfl

@[simp] theorem shiftReader_done (r : AsnReader) : (shiftReader k r).done = r.done := rfl

/-! ## The fields -/

theorem parseTime_shift (t : Tlv) : parseTime (shiftTlv k t) = parseTime t := rfl

theorem oidEq_shift (t : Tlv) (oid : Bytes) : oidEq (shiftTlv k t) oid = oidEq t oid := rfl

theorem parseKeyBytes_shift (key : Span) : parseKeyBytes (key.shift k) = parseKeyBytes key := rfl

theorem parseValidity_shift (t : Tlv) : parseValidity w (shiftTlv k t) = parseValidity w t := by
  simp only [parseValidity, shiftTlv_value, init_shift, next_shift, bind_map_left, parseTime_shift]

theorem checkKeyAlg_shift (t : Tlv) : checkKeyAlg w (shiftTlv k t) = checkKeyAlg w t := by
  simp only [checkKeyAlg, shiftTlv_value, init_shift, next_shift, bind_map_left, oidEq_shift]
  rfl

theorem readBitstringBytes_shift (t : Tlv) :
    readBitstringBytes (shiftTlv k t) = Span.shift k <$> readBitstringBytes t := by
  simp only [readBitstringBytes, shiftTlv_value, shiftTlv_tag, shift_len, shift_bytes, sub_shift, map_bind]
  rfl

theorem parseSpki_shift (t : Tlv) : parseSpki w (shiftTlv k t) = parseSpki w t := by
  simp only [parseSpki, shiftTlv_value, init_shift, next_shift, bind_map_left, checkKeyAlg_shift,
    readBitstringBytes_shift, parseKeyBytes_shift]

theorem basicConstraints_shift (r : AsnReader) : basicConstraints w (shiftReader k r) = basicConstraints w r := by
  have hfield (f : Tlv) (r : AsnReader) :
      (if f.tag = tagBoolean then Prod.fst <$> (fun x : Tlv × AsnReader => (shiftTlv k x.1, shiftReader k x.2)) <$> r.next w
        else .ok (shiftTlv k f)) =
      shiftTlv k <$> (if f.tag = tagBoolean then Prod.fst <$> r.next w else .ok f) := by
    split
    · simp only [Functor.map_map]
    · rfl
  simp only [basicConstraints, next_shift, bind_map_left, shiftTlv_tag, hfield, shiftTlv_value, parseTlv_shift, shift_len,
    init_shift, shift_bytes]
  rfl

theorem extensionLoop_shift : ∀ (fuel : Nat) (isCa : Bool) (er : AsnReader),
    extensionLoop w fuel isCa (shiftReader k er) = extensionLoop w fuel isCa er
  | 0, _, _ => rfl
  | fuel + 1, isCa, er => by
    simp only [extensionLoop, shiftReader_done, next_shift, bind_map_left, shiftTlv_tag, shiftTlv_value, init_shift,
      oidEq_shift, basicConstraints_shift, extensionLoop_shift fuel]
    rfl

theorem scanExtensions_shift (t : Tlv) (isCa : Bool) : scanExtensions w (shiftTlv k t) isCa = scanExtensions w t isCa := by
  simp only [scanExtensions, shiftTlv_value, parseTlv_shift, bind_map_left, shiftTlv_tag, shift_len, init_shift,
    extensionLoop_shift]
  rfl

theorem optionalLoop_shift : ∀ (fuel : Nat) (isCa : Bool) (r : AsnReader),
    optionalLoop w fuel isCa (shiftReader k r) = optionalLoop w fuel isCa r
  | 0, _, _ => rfl
  | fuel + 1, isCa, r => by
    simp only [optionalLoop, shiftReader_done, next_shift, bind_map_left, shiftTlv_tag, scanExtensions_shift,
      optionalLoop_shift fuel]

theorem skipSerial_shift (r : AsnReader) : skipSerial w (shiftReader k r) = shiftReader k <$> skipSerial w r := by
  have hfield (f : Tlv) (r : AsnReader) :
      (if f.tag = tagCtx 0 then (fun x : Tlv × AsnReader => (shiftTlv k x.1, shiftReader k x.2)) <$> r.next w
        else .ok (shiftTlv k f, shiftReader k r)) =
      (fun x : Tlv × AsnReader => (shiftTlv k x.1, shiftReader k x.2)) <$>
        (if f.tag = tagCtx 0 then r.next w else .ok (f, r)) := by
    split <;> rfl
  simp only [skipSerial, next_shift, bind_map_left, shiftTlv_tag, hfield, map_bind, map_pure]
  rfl

theorem readName_shift (r : AsnReader) :
    readName w (shiftReader k r) = (fun x => (x.1.shift k, shiftReader k x.2)) <$> readName w r := by
  simp only [readName, next_shift, bind_map_left, tlvView_shift, map_bind, map_pure,
    show (shiftReader k r).pos = r.pos from rfl]

/-- The TBSCertificate elsewhere has the same fields. -/
theorem parseTbs_shift (t : Tlv) : parseTbs w (shiftTlv k t) = shiftFields k <$> parseTbs w t := by
  simp only [parseTbs, shiftTlv_value, init_shift, skipSerial_shift, next_shift, readName_shift, bind_map_left,
    parseValidity_shift, parseSpki_shift, optionalLoop_shift, map_bind, map_pure,
    show ∀ r : AsnReader, (shiftReader k r).span.len = r.span.len from fun _ => rfl]
  rfl

/-! ## The bytes of a TLV -/

theorem readSlice_take {buf b : Bytes} {off n m : Nat} (h : readSlice buf off n = .ok b) (hm : off + n ≤ m) :
    readSlice (buf.take m) off n = .ok b := by
  obtain ⟨hle, hb⟩ := Record.readSlice_eq_ok.mp h
  refine Record.readSlice_eq_ok.mpr ⟨?_, ?_⟩
  · rw [List.length_take]
    omega
  · rw [List.drop_take, List.take_take, Nat.min_eq_left (by omega), hb]

theorem readAt_take {buf : Bytes} {b : Byte} {i m : Nat} (h : readAt buf i = .ok b) (hm : i < m) :
    readAt (buf.take m) i = .ok b := by
  rwa [readAt, List.getElem?_take_of_lt hm, ← readAt]

theorem parseLen_eq_ok {s : Span} {len0 : Byte} {pos n : Nat} (h : len0 &&& 0x80 ≠ 0) :
    parseLen w s len0 = .ok (pos, n) ↔ (len0 &&& 0x7F).toNat ≠ 0 ∧ (len0 &&& 0x7F).toNat ≤ w / 8 ∧
      (2 + (len0 &&& 0x7F).toNat) % 2 ^ w ≤ s.len ∧ ∃ octets, readSlice s.bytes 2 (len0 &&& 0x7F).toNat = .ok octets ∧
        2 + (len0 &&& 0x7F).toNat = pos ∧ beNat octets % 2 ^ w = n := by
  rw [parseLen, if_neg h]
  simp only [bind_eq_ok, failIf_eq_ok, exists_const, pure_eq_ok, Except.ok.injEq, Prod.mk.injEq, Nat.not_lt, ne_eq]

theorem parseLen_take {s : Span} {len0 : Byte} {pos n m : Nat} (h : parseLen w s len0 = .ok (pos, n)) (hm : pos ≤ m) :
    parseLen w ⟨s.off, s.bytes.take m⟩ len0 = .ok (pos, n) := by
  by_cases hbit : len0 &&& 0x80 = 0
  · rw [parseLen, if_pos hbit] at h ⊢
    exact h
  · obtain ⟨h0, hle, hlen, octets, hread, rfl, rfl⟩ := (parseLen_eq_ok hbit).mp h
    refine (parseLen_eq_ok hbit).mpr ⟨h0, hle, ?_, octets, readSlice_take hread hm, rfl, rfl⟩
    have hmod := Nat.mod_le (2 + (len0 &&& 0x7F).toNat) (2 ^ w)
    simp only [Span.len, List.length_take] at hlen ⊢
    omega

theorem two_le_of_parseLen {s : Span} {len0 : Byte} {pos n : Nat} (h : parseLen w s len0 = .ok (pos, n)) : 2 ≤ pos := by
  by_cases hbit : len0 &&& 0x80 = 0
  · rw [parseLen, if_pos hbit, pure_eq_ok, Except.ok.injEq, Prod.mk.injEq] at h
    exact h.1.le
  · obtain ⟨-, -, -, -, -, rfl, -⟩ := (parseLen_eq_ok hbit).mp h
    exact Nat.le_add_right 2 _

theorem parseTlv_eq_ok {s : Span} {t : Tlv} : parseTlv w s = .ok t ↔ 2 ≤ s.len ∧ ∃ tag, readAt s.bytes 0 = .ok tag ∧
    tag &&& 0x1F ≠ 0x1F ∧ ∃ len0, readAt s.bytes 1 = .ok len0 ∧ ∃ pos n, parseLen w s len0 = .ok (pos, n) ∧
      pos ≤ (pos + n) % 2 ^ w ∧ (pos + n) % 2 ^ w ≤ s.len ∧ ∃ value, readSlice s.bytes pos n = .ok value ∧
        t = ⟨tag, tag &&& 0x20 != 0, pos, ⟨s.off + pos, value⟩⟩ := by
  rw [parseTlv]
  simp only [bind_eq_ok, failIf_eq_ok, exists_const, pure_eq_ok, Except.ok.injEq, Prod.exists, Nat.not_lt, ne_eq, Span.sub,
    bind_assoc, ok_bind, eq_comm (b := t)]

/-- A TLV is parsed from its bytes alone. -/
theorem parseTlv_take {s : Span} {t : Tlv} (h : parseTlv w s = .ok t) :
    parseTlv w ⟨s.off, s.bytes.take (t.headerLen + t.value.len)⟩ = .ok t := by
  obtain ⟨h2, tag, htag, hlow, len0, hlen0, pos, n, hlen, hwrap, hfit, value, hvalue, rfl⟩ := parseTlv_eq_ok.mp h
  obtain ⟨hle, hb⟩ := Record.readSlice_eq_ok.mp hvalue
  have hpos := two_le_of_parseLen hlen
  have hvlen : value.length = n := by
    rw [← hb, List.length_take, List.length_drop]
    omega
  have htake : (s.bytes.take (pos + n)).length = pos + n := by
    rw [List.length_take]
    omega
  simp only [Span.len, hvlen]
  refine parseTlv_eq_ok.mpr ⟨?_, tag, readAt_take htag (by omega), hlow, len0, readAt_take hlen0 (by omega), pos, n,
    parseLen_take hlen (Nat.le_add_right _ _), hwrap, ?_, value, readSlice_take hvalue (Nat.le_refl _), rfl⟩
  · rw [Span.len, htake]
    omega
  · rw [Span.len, htake]
    exact Nat.mod_le _ _

/-! ## Certificates -/

/-- The whole TLV that is read, parsed again. -/
theorem parseTlv_tlvView {r r' : AsnReader} {t : Tlv} {s : Span} (hnext : r.next w = .ok (t, r'))
    (hview : r.tlvView r.pos t = .ok s) : parseTlv w ⟨r.span.off + r.pos, s.bytes⟩ = .ok t := by
  simp only [AsnReader.next, AsnReader.tlvView, Span.sub, bind_eq_ok, failIf_eq_ok, exists_const, pure_eq_ok, Except.ok.injEq,
    Prod.mk.injEq] at hnext hview
  obtain ⟨-, rest, ⟨b, hb, rfl⟩, t', ht, rfl, -⟩ := hnext
  obtain ⟨v, hv, rfl⟩ := hview
  obtain ⟨-, hb⟩ := Record.readSlice_eq_ok.mp hb
  obtain ⟨-, hv⟩ := Record.readSlice_eq_ok.mp hv
  rw [List.take_of_length_le (by rw [List.length_drop]; rfl)] at hb
  rw [hb] at hv
  have htake := parseTlv_take ht
  rwa [hv] at htake

/-- The fields of a certificate are those of the TLV in its `tbs_der`. -/
theorem x509Parse_tbs {der : Bytes} {c : X509Cert} (h : x509Parse w der = .ok c) :
    ∃ off t f, parseTlv w ⟨off, c.tbsDer.bytes⟩ = .ok t ∧ parseTbs w t = .ok f ∧
      c.issuerDer = f.issuerDer ∧ c.subjectDer = f.subjectDer ∧ (c.notBefore, c.notAfter) = f.validity ∧
      (c.pubkeyQx, c.pubkeyQy) = f.pubkey ∧ c.isCa = f.isCa := by
  rw [x509Parse] at h
  simp only [bind_eq_ok, failIf_eq_ok, exists_const, pure_eq_ok, Except.ok.injEq, Prod.exists] at h
  obtain ⟨certTlv, -, -, tbsTlv, r₁, hnext, -, tbsDer, hview, _, _, -, _, -, _, _, -, _, _, -, f, htbs, rfl⟩ := h
  exact ⟨_, tbsTlv, f, parseTlv_tlvView hnext hview, htbs, rfl, rfl, rfl, rfl, rfl⟩

/-- The TLV and the fields that these bytes have, wherever they lie. -/
theorem parseTbs_of_bytes {b : Bytes} {off : Nat} {t : Tlv} {f : TbsFields} (ht : parseTlv w ⟨off, b⟩ = .ok t)
    (hf : parseTbs w t = .ok f) : ∃ t₀ f₀, parseTlv w (.ofBytes b) = .ok t₀ ∧ parseTbs w t₀ = .ok f₀ ∧ f = shiftFields off f₀ := by
  rw [show (⟨off, b⟩ : Span) = (Span.ofBytes b).shift off from rfl, parseTlv_shift, map_eq_ok] at ht
  obtain ⟨t₀, ht₀, rfl⟩ := ht
  rw [parseTbs_shift, map_eq_ok] at hf
  obtain ⟨f₀, hf₀, rfl⟩ := hf
  exact ⟨t₀, f₀, ht₀, hf₀, rfl⟩

/-- Two inputs that parse, with the same bytes in `tbs_der`, have the same names, times, key and `is_ca`. -/
theorem fields_of_signed_bytes (w : Nat) (der₁ der₂ : Bytes) (c₁ c₂ : X509Cert) (h₁ : x509Parse w der₁ = .ok c₁)
    (h₂ : x509Parse w der₂ = .ok c₂) (htbs : c₁.tbsDer.bytes = c₂.tbsDer.bytes) :
    c₁.issuerDer.bytes = c₂.issuerDer.bytes ∧ c₁.subjectDer.bytes = c₂.subjectDer.bytes ∧ c₁.notBefore = c₂.notBefore ∧
      c₁.notAfter = c₂.notAfter ∧ c₁.pubkeyQx = c₂.pubkeyQx ∧ c₁.pubkeyQy = c₂.pubkeyQy ∧ c₁.isCa = c₂.isCa := by
  obtain ⟨off₁, t₁, f₁, ht₁, hf₁, hissuer₁, hsubject₁, hvalidity₁, hkey₁, hca₁⟩ := x509Parse_tbs h₁
  obtain ⟨off₂, t₂, f₂, ht₂, hf₂, hissuer₂, hsubject₂, hvalidity₂, hkey₂, hca₂⟩ := x509Parse_tbs h₂
  rw [htbs] at ht₁
  obtain ⟨t, f, ht, hf, rfl⟩ := parseTbs_of_bytes ht₁ hf₁
  obtain ⟨t', f', ht', hf', rfl⟩ := parseTbs_of_bytes ht₂ hf₂
  obtain rfl : t = t' := Except.ok.inj (ht.symm.trans ht')
  obtain rfl : f = f' := Except.ok.inj (hf.symm.trans hf')
  have hvalidity := hvalidity₁.trans hvalidity₂.symm
  have hkey := hkey₁.trans hkey₂.symm
  rw [Prod.mk.injEq] at hvalidity hkey
  rw [hissuer₁, hissuer₂, hsubject₁, hsubject₂, hca₁, hca₂]
  exact ⟨rfl, rfl, hvalidity.1, hvalidity.2, hkey.1, hkey.2, rfl⟩

/-- Two certificates that differ in their signatures. -/
theorem fields_of_signed_bytes_sample : ∃ c₁ c₂,
    x509Parse 64 (Spec.X509.certificate sampleTbs 0 0) = .ok c₁ ∧
    x509Parse 64 (Spec.X509.certificate sampleTbs 1 2) = .ok c₂ ∧ c₁.tbsDer.bytes = c₂.tbsDer.bytes ∧
    c₁.subjectDer.bytes = c₂.subjectDer.bytes := by
  obtain ⟨_, _, h₁⟩ := x509Parse_certificate sampleTbs ⟨beBytes 32 0, by simp⟩ ⟨beBytes 32 0, by simp⟩ (by decide +kernel)
  obtain ⟨_, _, h₂⟩ := x509Parse_certificate sampleTbs ⟨beBytes 32 1, by simp⟩ ⟨beBytes 32 2, by simp⟩ (by decide +kernel)
  exact ⟨_, _, h₁, h₂, rfl, (fields_of_signed_bytes 64 _ _ _ _ h₁ h₂ rfl).2.1⟩

end ND.Proof.X509
