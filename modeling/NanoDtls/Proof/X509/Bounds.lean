import NanoDtls.Proof.Span
import NanoDtls.Proof.X509

/-!
# The certificate parser stays inside its input

For a `size_t` of any width that holds the length of the input. A TLV that is
read lies inside the span of its reader and the reader moves on by at least
two bytes (`next_ensures`), so that the loops end; each function of the parser
then reads only inside the TLV it is given.
-/

namespace ND.Proof.X509

open ND.Impl ND.Impl.X509 ND.Impl.Asn1

variable {w : Nat}

/-! ## TLVs -/

/-- The sizes in the long form do not wrap around. -/
theorem two_add_lt_two_pow {n : Nat} (h0 : n ≠ 0) (h : n ≤ w / 8) : 2 + n < 2 ^ w := by
  have := w.lt_two_pow_self
  omega

theorem parseLen_ensures {s : Span} (len0 : Byte) (h2 : 2 ≤ s.len) :
    Ensures Status.ub (parseLen w s len0) fun x => 2 ≤ x.1 ∧ x.1 ≤ s.len ∧ x.2 < 2 ^ w := by
  refine ensures_ite (fun _ => ensures_ok ⟨Nat.le_refl 2, h2, Nat.mod_lt _ (Nat.two_pow_pos w)⟩) fun _ => ?_
  apply ensures_failIf_bind (by decide)
  intro h0
  apply ensures_failIf_bind (by decide)
  intro hle
  apply ensures_failIf_bind (by decide)
  intro hlen
  rw [Nat.mod_eq_of_lt (two_add_lt_two_pow h0 (Nat.le_of_not_lt hle))] at hlen
  have hlen := Nat.le_of_not_lt hlen
  exact (readSlice_ensures hlen).bind fun _ _ =>
    ensures_ok ⟨Nat.le_add_right 2 _, hlen, Nat.mod_lt _ (Nat.two_pow_pos w)⟩

/-- The TLV `t` starts at the start of `s`. -/
structure Starts (s : Span) (t : Tlv) : Prop where
  header : 2 ≤ t.headerLen
  off : t.value.off = s.off + t.headerLen
  slice : Slice s.bytes t.headerLen t.value.bytes

theorem Starts.inside {s : Span} {t : Tlv} (h : Starts s t) : Inside s t.value := ⟨_, h.off, h.slice⟩

theorem parseTlv_ensures {s : Span} (hs : s.len < 2 ^ w) : Ensures Status.ub (parseTlv w s) (Starts s) := by
  apply ensures_failIf_bind (by decide)
  intro h2
  have h2 := Nat.le_of_not_lt h2
  refine (readAt_ensures (Nat.lt_of_lt_of_le (by decide) h2)).bind fun tag _ => ?_
  apply ensures_failIf_bind (by decide)
  intro _
  refine (readAt_ensures (Nat.lt_of_lt_of_le (by decide) h2)).bind fun len0 _ => ?_
  refine (parseLen_ensures len0 h2).bind ?_
  intro ⟨pos, valueLen⟩ ⟨hpos, hle, hlt⟩
  apply ensures_failIf_bind (by decide)
  intro hwrap
  apply ensures_failIf_bind (by decide)
  intro hfit
  -- a sum that wraps around is below `pos`
  have hsum : (pos + valueLen) % 2 ^ w = pos + valueLen := by
    refine Nat.mod_eq_of_lt (Nat.lt_of_not_le fun hge => hwrap ?_)
    simp only at hle hlt hge
    rw [Nat.mod_eq_sub_mod hge, Nat.mod_eq_of_lt (by omega)]
    omega
  rw [hsum] at hfit
  refine (sub_ensures (Nat.le_of_not_lt hfit)).bind fun value hvalue => ?_
  exact ensures_ok ⟨hpos, hvalue.1, hvalue.2.1⟩

/-- The reader `r` has read the TLV `t`, and is `r'` then. -/
structure Advanced (r : AsnReader) (t : Tlv) (r' : AsnReader) : Prop where
  span : r'.span = r.span
  header : 2 ≤ t.headerLen
  pos : r'.pos = r.pos + (t.headerLen + t.value.len)
  pos_le : r'.pos ≤ r.span.len
  off : t.value.off = r.span.off + (r.pos + t.headerLen)
  slice : Slice r.span.bytes (r.pos + t.headerLen) t.value.bytes

theorem Advanced.inside {r r' : AsnReader} {t : Tlv} (h : Advanced r t r') : Inside r.span t.value := ⟨_, h.off, h.slice⟩

theorem Advanced.value_lt {r r' : AsnReader} {t : Tlv} (h : Advanced r t r') (hr : r.span.len < 2 ^ w) :
    t.value.len < 2 ^ w :=
  Nat.lt_of_le_of_lt h.inside.len_le hr

theorem Advanced.span_lt {r r' : AsnReader} {t : Tlv} (h : Advanced r t r') (hr : r.span.len < 2 ^ w) :
    r'.span.len < 2 ^ w := by
  rwa [h.span]

theorem next_ensures {r : AsnReader} (hr : r.span.len < 2 ^ w) :
    Ensures Status.ub (r.next w) fun x => Advanced r x.1 x.2 := by
  apply ensures_failIf_bind (by decide)
  intro hpos
  have hpos := Nat.lt_of_not_le hpos
  refine (sub_ensures (show r.pos + (r.span.len - r.pos) ≤ r.span.len by omega)).bind fun rest hrest => ?_
  obtain ⟨hoff, hslice, hlen⟩ := hrest
  refine (parseTlv_ensures (by omega)).bind fun t ht => ensures_ok ?_
  have hend := ht.slice.1
  simp only [Span.len] at hend hlen hpos hr
  have hsum : (r.pos + (t.headerLen + t.value.len)) % 2 ^ w = r.pos + (t.headerLen + t.value.len) := by
    rw [Nat.mod_eq_of_lt]
    simp only [Span.len]
    omega
  refine ⟨rfl, ht.header, hsum, ?_, ?_, hslice.trans ht.slice⟩
  · rw [hsum]
    simp only [Span.len]
    omega
  · rw [ht.off, hoff, Nat.add_assoc]

/-- The whole TLV that was just read. -/
theorem tlvView_ensures {r r' : AsnReader} {t : Tlv} (h : Advanced r t r') :
    Ensures Status.ub (r.tlvView r.pos t) fun s => Inside r.span s ∧ Inside s t.value := by
  have hle := h.pos_le
  rw [h.pos] at hle
  refine (sub_ensures hle).mono ?_
  intro s ⟨hoff, hslice, hlen⟩
  refine ⟨⟨r.pos, hoff, hslice⟩, t.headerLen, by rw [h.off, hoff, Nat.add_assoc], ?_⟩
  -- the value is a slice of the reader's span, so of the view around it
  simp only [Span.len] at hlen
  refine slice_of_getElem? (by omega) fun i hi => ?_
  rw [h.slice.getElem?_eq hi, hslice.getElem?_eq (by omega), Nat.add_assoc]

/-! ## The fields -/

theorem readUintFixed_ensures (t : Tlv) (outLen : Nat) : Ensures Status.ub (readUintFixed t outLen) fun _ => True := by
  apply ensures_failIf_bind (by decide)
  intro _
  apply ensures_failIf_bind (by decide)
  intro h0
  refine (readAt_ensures (Nat.pos_of_ne_zero h0)).bind fun p0 _ => ?_
  simp only
  apply ensures_failIf_bind (by decide)
  intro hp
  refine (readAt_ensures (by omega)).bind fun top _ => ?_
  apply ensures_failIf_bind (by decide)
  intro _
  refine (bytesN_ensures ?_).mono fun _ _ => trivial
  rw [List.length_append, List.length_replicate]
  omega

theorem readBitstringBytes_ensures (t : Tlv) : Ensures Status.ub (readBitstringBytes t) (Inside t.value) := by
  apply ensures_failIf_bind (by decide)
  intro _
  apply ensures_failIf_bind (by decide)
  intro h1
  refine (readAt_ensures (Nat.le_of_not_lt h1)).bind fun unused _ => ?_
  apply ensures_failIf_bind (by decide)
  intro _
  refine (sub_ensures (by omega)).mono ?_
  intro s ⟨hoff, hslice, _⟩
  exact ⟨1, hoff, hslice⟩

theorem readEcdsaSigValue_ensures {sig : Span} (h : sig.len < 2 ^ w) :
    Ensures Status.ub (readEcdsaSigValue w sig) fun _ => True := by
  refine (parseTlv_ensures h).bind fun seqTlv hseq => ?_
  apply ensures_failIf_bind (by decide)
  intro _
  have hlt := Nat.lt_of_le_of_lt hseq.inside.len_le h
  refine (next_ensures hlt).bind ?_
  intro ⟨rTlv, sr⟩ hr
  refine (next_ensures (hr.span_lt hlt)).bind ?_
  intro ⟨sTlv, _⟩ _
  refine (readUintFixed_ensures rTlv 32).bind fun r _ => ?_
  exact (readUintFixed_ensures sTlv 32).bind fun s _ => ensures_ok trivial

theorem timeDigits_ensures (t : Tlv) (n : Nat) : Ensures Status.ub (timeDigits t n) fun _ => True := by
  apply ensures_failIf_bind (by decide)
  intro hlen
  have hlen : t.value.bytes.length = n + 1 := Decidable.not_not.mp hlen
  refine (readAt_ensures (by omega)).bind fun z _ => ?_
  apply ensures_failIf_bind (by decide)
  intro _
  refine (readSlice_ensures (by omega)).bind fun digits _ => ?_
  apply ensures_failIf_bind (by decide)
  intro _
  exact ensures_ok trivial

theorem parseTime_ensures (t : Tlv) : Ensures Status.ub (parseTime t) fun _ => True := by
  refine ensures_ite (fun _ => ?_) fun _ => ensures_ite (fun _ => ?_) fun _ => ensures_error (by decide)
  · exact (timeDigits_ensures t 12).bind fun _ _ => ensures_ok trivial
  · exact (timeDigits_ensures t 14).bind fun _ _ => ensures_ok trivial

theorem checkSigAlg_ensures {t : Tlv} (h : t.value.len < 2 ^ w) : Ensures Status.ub (checkSigAlg w t) fun _ => True := by
  refine (next_ensures h).bind fun x _ => ?_
  exact (ensures_failIf (by decide)).mono fun _ _ => trivial

theorem parseSigVal_ensures {t : Tlv} (h : t.value.len < 2 ^ w) : Ensures Status.ub (parseSigVal w t) fun _ => True :=
  (readBitstringBytes_ensures t).bind fun _ hs => readEcdsaSigValue_ensures (Nat.lt_of_le_of_lt hs.len_le h)

theorem parseValidity_ensures {t : Tlv} (h : t.value.len < 2 ^ w) : Ensures Status.ub (parseValidity w t) fun _ => True := by
  refine (next_ensures h).bind ?_
  intro ⟨nb, vr⟩ hnb
  refine (next_ensures (hnb.span_lt h)).bind ?_
  intro ⟨na, _⟩ _
  refine (parseTime_ensures nb).bind fun _ _ => ?_
  exact (parseTime_ensures na).bind fun _ _ => ensures_ok trivial

theorem checkKeyAlg_ensures {t : Tlv} (h : t.value.len < 2 ^ w) : Ensures Status.ub (checkKeyAlg w t) fun _ => True := by
  refine (next_ensures h).bind ?_
  intro ⟨algOid, ar⟩ halg
  apply ensures_failIf_bind (by decide)
  intro _
  refine (next_ensures (halg.span_lt h)).bind fun x _ => ?_
  exact (ensures_failIf (by decide)).mono fun _ _ => trivial

theorem parseKeyBytes_ensures (key : Span) : Ensures Status.ub (parseKeyBytes key) fun _ => True := by
  apply ensures_failIf_bind (by decide)
  intro hlen
  have hlen : key.bytes.length = 65 := Decidable.not_not.mp hlen
  refine (readAt_ensures (by omega)).bind fun form _ => ?_
  apply ensures_failIf_bind (by decide)
  intro _
  refine (readSlice_ensures (by omega)).bind fun bx hx => ?_
  refine (bytesN_ensures hx.2).bind fun qx _ => ?_
  refine (readSlice_ensures (by omega)).bind fun bY hy => ?_
  refine (bytesN_ensures hy.2).bind fun qy _ => ?_
  rcases P256.pointIsValid_decides qx qy with ⟨hok, -⟩ | ⟨herr, -⟩
  · rw [hok]
    exact ensures_ok trivial
  · rw [herr]
    exact ensures_error (by decide)

theorem parseSpki_ensures {t : Tlv} (h : t.value.len < 2 ^ w) : Ensures Status.ub (parseSpki w t) fun _ => True := by
  refine (next_ensures h).bind ?_
  intro ⟨algTlv, sr⟩ halg
  refine (checkKeyAlg_ensures (halg.value_lt h)).bind fun _ _ => ?_
  refine (next_ensures (halg.span_lt h)).bind ?_
  intro ⟨keyBitsTlv, _⟩ _
  exact (readBitstringBytes_ensures keyBitsTlv).bind fun key _ => parseKeyBytes_ensures key

/-! ## The loops -/

theorem basicConstraints_ensures {xr : AsnReader} (h : xr.span.len < 2 ^ w) :
    Ensures Status.ub (basicConstraints w xr) fun _ => True := by
  refine (next_ensures h).bind ?_
  intro ⟨field, xr'⟩ hfield
  have hnext : Ensures Status.ub (if field.tag = tagBoolean then Prod.fst <$> xr'.next w else .ok field)
      fun f => f.value.len < 2 ^ w := by
    refine ensures_ite (fun _ => ?_) fun _ => ensures_ok (hfield.value_lt h)
    have hspan := hfield.span_lt h
    exact (next_ensures hspan).bind fun x hx => ensures_ok (hx.value_lt hspan)
  refine hnext.bind fun f hf => ?_
  apply ensures_failIf_bind (by decide)
  intro _
  refine (parseTlv_ensures hf).bind fun bcSeq hseq => ?_
  refine ensures_ite (fun _ => ?_) fun _ => ensures_ok trivial
  refine (next_ensures (Nat.lt_of_le_of_lt hseq.inside.len_le hf)).bind ?_
  intro ⟨caBool, _⟩ _
  refine ensures_ite (fun hca => ?_) fun _ => ensures_ok trivial
  exact (readAt_ensures (show 0 < caBool.value.len by omega)).bind fun _ _ => ensures_ok trivial

/-- A turn of the loop leaves fewer bytes than turns. -/
theorem extensionLoop_ensures : ∀ (fuel : Nat) (isCa : Bool) (er : AsnReader), er.span.len < 2 ^ w → er.pos ≤ er.span.len →
    er.span.len < fuel + er.pos → Ensures Status.ub (extensionLoop w fuel isCa er) fun _ => True
  | 0, _, er, _, hpos, hfuel => by omega
  | fuel + 1, isCa, er, h, _, hfuel => by
    refine ensures_ite (fun _ => ensures_ok trivial) fun _ => ?_
    refine (next_ensures h).bind ?_
    intro ⟨ext, er'⟩ hext
    apply ensures_failIf_bind (by decide)
    intro _
    refine (next_ensures (hext.value_lt h)).bind ?_
    intro ⟨extOid, xr⟩ hoid
    have hca : Ensures Status.ub (if oidEq extOid oidBasicConstraints then basicConstraints w xr else .ok false)
        fun _ => True :=
      ensures_ite (fun _ => basicConstraints_ensures (hoid.span_lt (hext.value_lt h))) fun _ => ensures_ok trivial
    refine hca.bind fun ca _ => ?_
    have hpos := hext.pos
    have hheader := hext.header
    have hle := hext.pos_le
    have hspan := hext.span
    simp only at hpos hheader hle hspan
    exact extensionLoop_ensures fuel _ er' (hext.span_lt h) (by rwa [hspan]) (by rw [hspan]; omega)

theorem scanExtensions_ensures {t : Tlv} (h : t.value.len < 2 ^ w) (isCa : Bool) :
    Ensures Status.ub (scanExtensions w t isCa) fun _ => True := by
  refine (parseTlv_ensures h).bind fun extsSeq hseq => ?_
  apply ensures_failIf_bind (by decide)
  intro _
  exact extensionLoop_ensures _ isCa _ (Nat.lt_of_le_of_lt hseq.inside.len_le h) (Nat.zero_le _) (Nat.lt_succ_self _)

theorem optionalLoop_ensures : ∀ (fuel : Nat) (isCa : Bool) (r : AsnReader), r.span.len < 2 ^ w → r.pos ≤ r.span.len →
    r.span.len < fuel + r.pos → Ensures Status.ub (optionalLoop w fuel isCa r) fun _ => True
  | 0, _, r, _, hpos, hfuel => by omega
  | fuel + 1, isCa, r, h, _, hfuel => by
    refine ensures_ite (fun _ => ensures_ok trivial) fun _ => ?_
    refine (next_ensures h).bind ?_
    intro ⟨opt, r'⟩ hopt
    have hscan : Ensures Status.ub (if opt.tag = tagCtx 3 then scanExtensions w opt isCa else .ok isCa) fun _ => True :=
      ensures_ite (fun _ => scanExtensions_ensures (hopt.value_lt h) isCa) fun _ => ensures_ok trivial
    refine hscan.bind fun isCa' _ => ?_
    have hpos := hopt.pos
    have hheader := hopt.header
    have hle := hopt.pos_le
    have hspan := hopt.span
    simp only at hpos hheader hle hspan
    exact optionalLoop_ensures fuel _ r' (hopt.span_lt h) (by rwa [hspan]) (by rw [hspan]; omega)

/-! ## Certificates -/

/-- A reader over the same span, at a position inside it. -/
def Later (r r' : AsnReader) : Prop := r'.span = r.span ∧ r'.pos ≤ r.span.len

theorem Advanced.later {r r' : AsnReader} {t : Tlv} (h : Advanced r t r') : Later r r' := ⟨h.span, h.pos_le⟩

theorem Later.trans {r r' r'' : AsnReader} (h : Later r r') (h' : Later r' r'') : Later r r'' :=
  ⟨h'.1.trans h.1, h.1 ▸ h'.2⟩

theorem Later.span_lt {r r' : AsnReader} (h : Later r r') (hr : r.span.len < 2 ^ w) : r'.span.len < 2 ^ w := by
  rwa [h.1]

theorem skipSerial_ensures {r : AsnReader} (h : r.span.len < 2 ^ w) : Ensures Status.ub (skipSerial w r) (Later r) := by
  refine (next_ensures h).bind ?_
  intro ⟨field, r₁⟩ hfield
  have hserial : Ensures Status.ub (if field.tag = tagCtx 0 then r₁.next w else .ok (field, r₁)) fun x => Later r x.2 :=
    ensures_ite (fun _ => (next_ensures (hfield.span_lt h)).mono fun _ hx => hfield.later.trans hx.later)
      fun _ => ensures_ok hfield.later
  refine hserial.bind ?_
  intro ⟨field, r₂⟩ hr₂
  apply ensures_failIf_bind (by decide)
  intro _
  exact ensures_ok hr₂

theorem readName_ensures {r : AsnReader} (h : r.span.len < 2 ^ w) :
    Ensures Status.ub (readName w r) fun x => Inside r.span x.1 ∧ Later r x.2 := by
  refine (next_ensures h).bind ?_
  intro ⟨t, r'⟩ ht
  exact (tlvView_ensures ht).bind fun name hname => ensures_ok ⟨hname.1, ht.later⟩

theorem parseTbs_ensures {t : Tlv} (h : t.value.len < 2 ^ w) : Ensures Status.ub (parseTbs w t)
    fun fields => Inside t.value fields.issuerDer ∧ Inside t.value fields.subjectDer := by
  refine (skipSerial_ensures h).bind fun r₁ h₁ => ?_
  refine (next_ensures (h₁.span_lt h)).bind ?_
  intro ⟨_, r₂⟩ h₂
  have h₂ := h₁.trans h₂.later
  refine (readName_ensures (h₂.span_lt h)).bind ?_
  intro ⟨issuerDer, r₃⟩ ⟨hissuer, h₃⟩
  have h₃ := h₂.trans h₃
  refine (next_ensures (h₃.span_lt h)).bind ?_
  intro ⟨validityTlv, r₄⟩ hvalidity
  have h₄ := h₃.trans hvalidity.later
  refine (parseValidity_ensures (hvalidity.value_lt (h₃.span_lt h))).bind fun validity _ => ?_
  refine (readName_ensures (h₄.span_lt h)).bind ?_
  intro ⟨subjectDer, r₅⟩ ⟨hsubject, h₅⟩
  have h₅ := h₄.trans h₅
  refine (next_ensures (h₅.span_lt h)).bind ?_
  intro ⟨spkiTlv, r₆⟩ hspki
  have h₆ := h₅.trans hspki.later
  refine (parseSpki_ensures (hspki.value_lt (h₅.span_lt h))).bind fun pubkey _ => ?_
  refine (optionalLoop_ensures _ false r₆ (h₆.span_lt h) (by rw [h₆.1]; exact h₆.2) (by omega)).bind fun isCa _ => ?_
  rw [h₂.1] at hissuer
  rw [h₄.1] at hsubject
  exact ensures_ok ⟨hissuer, hsubject⟩

/-- The views of a parsed certificate: the TBSCertificate in the input, the names in the TBSCertificate. -/
theorem x509Parse_ensures {der : Bytes} (h : der.length < 2 ^ w) : Ensures Status.ub (x509Parse w der)
    fun c => Inside (.ofBytes der) c.tbsDer ∧ Inside c.tbsDer c.issuerDer ∧ Inside c.tbsDer c.subjectDer := by
  refine (parseTlv_ensures (s := .ofBytes der) h).bind fun certTlv hcert => ?_
  have hlt := Nat.lt_of_le_of_lt hcert.inside.len_le h
  apply ensures_failIf_bind (by decide)
  intro _
  refine (next_ensures (r := .init certTlv.value) hlt).bind ?_
  intro ⟨tbsTlv, r₁⟩ htbs
  apply ensures_failIf_bind (by decide)
  intro _
  refine (tlvView_ensures htbs).bind fun tbsDer hder => ?_
  refine (next_ensures (htbs.span_lt hlt)).bind ?_
  intro ⟨sigAlgTlv, r₂⟩ halg
  refine (checkSigAlg_ensures (halg.value_lt (htbs.span_lt hlt))).bind fun _ _ => ?_
  have h₂ := htbs.later.trans halg.later
  refine (next_ensures (h₂.span_lt hlt)).bind ?_
  intro ⟨sigValTlv, _⟩ hval
  refine (parseSigVal_ensures (hval.value_lt (h₂.span_lt hlt))).bind fun sig _ => ?_
  refine (parseTbs_ensures (htbs.value_lt hlt)).bind fun fields hfields => ?_
  exact ensures_ok ⟨hcert.inside.trans hder.1, hder.2.trans hfields.1, hder.2.trans hfields.2⟩

/-- `nd_x509_parse` reads only inside its input, and it ends; a TLV lies inside the span it is read from;
a reader that reads one moves on by at least two bytes, inside its span; and the views of a parsed
certificate lie inside the input, with the bytes that are there. -/
theorem parse_in_bounds (w : Nat) (der : Bytes) (h : der.length < 2 ^ w) :
    Avoids Status.ub (x509Parse w der) ∧
    (∀ s t, Inside (.ofBytes der) s → parseTlv w s = .ok t → Inside s t.value) ∧
    (∀ (r : AsnReader) (t : Tlv) (r' : AsnReader), Inside (.ofBytes der) r.span → r.next w = .ok (t, r') →
      Inside r.span t.value ∧ r.pos + 2 ≤ r'.pos ∧ r'.pos ≤ r'.span.len ∧ r'.span = r.span) ∧
    ∀ c, x509Parse w der = .ok c → ViewOf der c.tbsDer ∧ ViewOf der c.issuerDer ∧ ViewOf der c.subjectDer := by
  obtain ⟨hub, hviews⟩ := x509Parse_ensures h
  refine ⟨hub, ?_, ?_, ?_⟩
  · intro s t hs ht
    exact ((parseTlv_ensures (Nat.lt_of_le_of_lt hs.len_le h)).2 t ht).inside
  · intro r t r' hr ht
    have hadv := (next_ensures (Nat.lt_of_le_of_lt hr.len_le h)).2 _ ht
    have hpos := hadv.pos
    have hheader := hadv.header
    simp only at hpos hheader
    exact ⟨hadv.inside, by omega, hadv.span ▸ hadv.pos_le, hadv.span⟩
  · intro c hc
    obtain ⟨htbs, hissuer, hsubject⟩ := hviews c hc
    exact ⟨htbs.viewOf, (htbs.trans hissuer).viewOf, (htbs.trans hsubject).viewOf⟩

/-- The certificate of `sampleTbs`, with a signature of zeros. -/
def unsignedSample : Bytes := Spec.X509.certificate sampleTbs (beNat (zeros 32).1) (beNat (zeros 32).1)

theorem parse_in_bounds_sample : ∃ c, x509Parse 64 unsignedSample = .ok c ∧
    ViewOf unsignedSample c.tbsDer ∧ ViewOf unsignedSample c.issuerDer ∧ ViewOf unsignedSample c.subjectDer := by
  have hsz : unsignedSample.length < 2 ^ 64 := by decide +kernel
  obtain ⟨i, j, hparse⟩ := x509Parse_certificate sampleTbs (zeros 32) (zeros 32) hsz
  exact ⟨_, hparse, (parse_in_bounds 64 unsignedSample hsz).2.2.2 _ hparse⟩

end ND.Proof.X509
