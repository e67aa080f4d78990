import NanoDtls.Impl.X509
import NanoDtls.Proof.Asn1
import NanoDtls.Proof.P256.Signer
import NanoDtls.Proof.P256.Ecdsa

/-!
# Certificates that are parsed

`nd_x509_parse` of the DER encoding of a certificate gives its fields
(`x509Parse_certificate`): one lemma for each block of the parser, on the
encoding of that block with anything after it.
-/

namespace ND.Proof.X509

open ND.Impl ND.Impl.X509 ND.Impl.Asn1
open Proof.Asn1 Proof.Record
open Spec.X509 (tlv sequence oid bitString boolean optional Digits Element Time Extension Tbs)

/-! ## Times -/

theorem decimal_eq (digits : Bytes) : decimal digits = Spec.X509.decimal digits := by
  simp only [decimal, Spec.X509.decimal, Nat.mul_comm]

theorem timeDigits_eq (tag : Byte) {digits : Bytes} (off : Nat) (hd : ∀ b ∈ digits, 0x30 ≤ b ∧ b ≤ 0x39) :
    timeDigits (tlvAt tag off (digits ++ [0x5a])) digits.length = .ok digits := by
  have hz : readAt (digits ++ [0x5a]) digits.length = .ok (0x5a : Byte) := by
    simp [readAt]
  have hslice : readSlice (digits ++ [0x5a]) 0 digits.length = .ok digits := readSlice_append [] _ [0x5a] rfl rfl rfl
  have hall : allDigits digits = true := by
    rw [allDigits, List.all_eq_true]
    intro b hb
    obtain ⟨h0, h9⟩ := hd b hb
    simp only [h0, h9, decide_true, Bool.and_self]
  simp only [timeDigits, tlvAt, Span.len, List.length_append, List.length_singleton, hz, hslice, ok_bind]
  rw [failIf_bind (by simp), failIf_bind (by simp), failIf_bind (by simp [hall])]
  rfl

/-- The five pairs of digits after the year. -/
theorem canonicalTime_eq (year : Nat) (before : Bytes) {pairs : Bytes} (h : pairs.length = 10) :
    canonicalTime year (before ++ pairs) before.length = year * 10 ^ 10 + Spec.X509.decimal pairs := by
  match pairs with
  | [a, b, c, d, e, f, g, h, i, j] =>
    simp only [canonicalTime, d2, decimal, Spec.X509.decimal, List.drop_left, ← List.drop_drop, List.drop_succ_cons,
      List.drop_zero, List.take_succ_cons, List.take_zero, List.foldl_cons, List.foldl_nil]
    omega

theorem decimal_append (a b : Bytes) :
    Spec.X509.decimal (a ++ b) = Spec.X509.decimal a * 10 ^ b.length + Spec.X509.decimal b := by
  have hfold : ∀ (l : Bytes) (v : Nat), l.foldl (fun v b => 10 * v + (b.toNat - 0x30)) v =
      v * 10 ^ l.length + Spec.X509.decimal l := by
    intro l
    induction l with
    | nil => simp [Spec.X509.decimal]
    | cons b l ih =>
      intro v
      rw [Spec.X509.decimal, List.foldl_cons, List.foldl_cons, ih, ih, List.length_cons, pow_succ]
      ring
  rw [Spec.X509.decimal, List.foldl_append, hfold, ← Spec.X509.decimal]

/-- `parse_time` of a time. -/
theorem parseTime_encode (t : Time) : ∃ tag value, t.encode = tlv tag value ∧ tag &&& 0x1F ≠ 0x1F ∧
    ∀ off, parseTime (tlvAt tag off value) = .ok t.canonical := by
  cases t with
  | utc digits h =>
    have hlen := h.1
    have hd := h.2
    refine ⟨0x17, _, rfl, by decide, fun off => ?_⟩
    have hdigits := timeDigits_eq 0x17 off hd
    obtain ⟨yy, pairs, rfl, hyy⟩ : ∃ yy pairs, digits = yy ++ pairs ∧ yy.length = 2 :=
      ⟨digits.take 2, digits.drop 2, (List.take_append_drop 2 digits).symm, by rw [List.length_take]; omega⟩
    have hpairs : pairs.length = 10 := by
      rw [List.length_append] at hlen
      omega
    have htake : (yy ++ pairs).take 2 = yy := by rw [← hyy, List.take_left]
    have hyear : d2 (yy ++ pairs) 0 = Spec.X509.decimal yy := by rw [d2, List.drop_zero, htake, decimal_eq]
    have hcanon (year : Nat) := canonicalTime_eq year yy hpairs
    rw [hyy] at hcanon
    rw [hlen] at hdigits
    rw [parseTime, if_pos (show (tlvAt 0x17 off (yy ++ pairs ++ [0x5a])).tag = tagUtcTime from rfl), hdigits, ok_bind]
    simp only [hyear, hcanon, Time.canonical, decimal_append, hpairs, htake, pure_eq_ok, Except.ok.injEq]
    split <;> split <;> omega
  | generalized digits h =>
    have hlen := h.1
    have hd := h.2
    refine ⟨0x18, _, rfl, by decide, fun off => ?_⟩
    have hdigits := timeDigits_eq 0x18 off hd
    obtain ⟨year, pairs, rfl, hyear⟩ : ∃ year pairs, digits = year ++ pairs ∧ year.length = 4 :=
      ⟨digits.take 4, digits.drop 4, (List.take_append_drop 4 digits).symm, by rw [List.length_take]; omega⟩
    have hpairs : pairs.length = 10 := by
      rw [List.length_append] at hlen
      omega
    have htake : (year ++ pairs).take 4 = year := by rw [← hyear, List.take_left]
    have hcanon (y : Nat) := canonicalTime_eq y year hpairs
    rw [hyear] at hcanon
    rw [hlen] at hdigits
    rw [parseTime, if_neg (show (tlvAt 0x18 off (year ++ pairs ++ [0x5a])).tag ≠ tagUtcTime from
        (by decide : (0x18 : Byte) ≠ tagUtcTime)),
      if_pos (show (tlvAt 0x18 off (year ++ pairs ++ [0x5a])).tag = tagGeneralizedTime from rfl), hdigits, ok_bind]
    simp only [htake, hcanon, decimal_eq, Time.canonical, decimal_append, hpairs, pure_eq_ok]

/-- The validity. -/
theorem parseValidity_encode (nb na : Time) (off : Nat) (hsz : (nb.encode ++ na.encode).length < 2 ^ 64) :
    parseValidity 64 (tlvAt 0x30 off (nb.encode ++ na.encode)) = .ok (nb.canonical, na.canonical) := by
  obtain ⟨nbTag, nbValue, hnb, hnbTag, hnbParse⟩ := parseTime_encode nb
  obtain ⟨naTag, naValue, hna, hnaTag, hnaParse⟩ := parseTime_encode na
  rw [hnb, hna] at hsz ⊢
  have h := at_init off hsz
  rw [parseValidity, tlvAt]
  simp only
  generalize AsnReader.init _ = r at h ⊢
  obtain ⟨hfirst, h⟩ := h.next hnbTag
  rw [← List.append_nil (tlv naTag naValue)] at h
  obtain ⟨hsecond, _⟩ := h.next hnaTag
  simp only [hfirst, hsecond, ok_bind, hnbParse, hnaParse, pure_eq_ok]

/-! ## The signature and the key -/

theorem checkSigAlg_eq (off : Nat) : checkSigAlg 64 (tlvAt 0x30 off (oid Spec.X509.ecdsaWithSha256)) = .ok () := rfl

theorem readBitstringBytes_eq (off : Nat) (value : Bytes) :
    readBitstringBytes (tlvAt 0x03 off ([0x00] ++ value)) = .ok ⟨off + 1, value⟩ := by
  have hslice : readSlice ([0x00] ++ value) 1 value.length = .ok value :=
    readSlice_append [0x00] value [] (by rw [List.append_nil]) rfl rfl
  have hread : readAt ([0x00] ++ value) 0 = .ok (0x00 : Byte) := rfl
  rw [readBitstringBytes, failIf_bind (fun h => h rfl)]
  simp only [tlvAt, Span.len, List.length_append, List.length_singleton, Nat.add_sub_cancel_left, hread, ok_bind, Span.sub,
    hslice]
  rw [failIf_bind (by omega), failIf_bind (fun h => h rfl)]
  rfl

theorem parseSigVal_eq (r s : BytesN 32) (off : Nat) :
    parseSigVal 64 (tlvAt 0x03 off ([0x00] ++ signatureDer r s)) = .ok (r, s) := by
  rw [parseSigVal, readBitstringBytes_eq, ok_bind, readEcdsaSigValue_write]

theorem checkKeyAlg_eq (off : Nat) :
    checkKeyAlg 64 (tlvAt 0x30 off (oid Spec.X509.ecPublicKey ++ oid Spec.X509.prime256v1)) = .ok () := rfl

theorem parseKeyBytes_eq {qx qy : BytesN 32} (h : Spec.Ecdsa.OnCurve (beNat qx.1) (beNat qy.1)) (off : Nat) :
    parseKeyBytes ⟨off, [0x04] ++ qx.1 ++ qy.1⟩ = .ok (qx, qy) := by
  have hvalid : P256.p256PointIsValid qx qy = .ok () := (P256.pointIsValid_decides qx qy).ok_iff.mpr h
  have hform : readAt ([0x04] ++ qx.1 ++ qy.1) 0 = .ok (0x04 : Byte) := rfl
  have hx : readSlice ([0x04] ++ qx.1 ++ qy.1) 1 32 = .ok qx.1 :=
    readSlice_append [0x04] qx.1 qy.1 (by rw [List.append_assoc]) rfl qx.2
  have hy : readSlice ([0x04] ++ qx.1 ++ qy.1) 33 32 = .ok qy.1 :=
    readSlice_append ([0x04] ++ qx.1) qy.1 [] (by rw [List.append_nil]) (by simp [qx.2]) qy.2
  rw [parseKeyBytes, failIf_bind (by simp [Span.len, qx.2, qy.2])]
  simp only [hform, hx, hy, ok_bind, bytesN_eq, hvalid]
  rw [failIf_bind (fun h => h rfl)]
  rfl

theorem parseSpki_eq {qx qy : BytesN 32} (h : Spec.Ecdsa.OnCurve (beNat qx.1) (beNat qy.1)) (off : Nat) :
    parseSpki 64 (tlvAt 0x30 off (sequence (oid Spec.X509.ecPublicKey ++ oid Spec.X509.prime256v1) ++
      bitString ([0x04] ++ qx.1 ++ qy.1))) = .ok (qx, qy) := by
  have hlen : (bitString ([0x04] ++ qx.1 ++ qy.1)).length = 68 := by
    rw [bitString, length_tlv]
    simp only [List.length_append, List.length_singleton, qx.2, qy.2]
    rw [headerLen_short (by decide)]
  have hat := at_init off (show (sequence (oid Spec.X509.ecPublicKey ++ oid Spec.X509.prime256v1) ++
    bitString ([0x04] ++ qx.1 ++ qy.1)).length < 2 ^ 64 by rw [List.length_append, hlen]; decide)
  rw [parseSpki, tlvAt]
  simp only
  generalize AsnReader.init _ = r at hat ⊢
  obtain ⟨halg, hat⟩ := hat.next (by decide)
  rw [bitString, ← List.append_nil (tlv 0x03 _)] at hat
  obtain ⟨hkey, _⟩ := hat.next (by decide)
  simp only [halg, hkey, ok_bind, checkKeyAlg_eq, readBitstringBytes_eq, parseKeyBytes_eq h]

/-! ## The fields before the key -/

theorem skipSerial_eq {r : AsnReader} {version : Option Bytes} {serial rest : Bytes}
    (h : At r (optional (tlv 0xa0) version ++ (tlv 0x02 serial ++ rest))) :
    ∃ r', skipSerial 64 r = .ok r' ∧ At r' rest := by
  cases version with
  | none =>
    obtain ⟨hserial, h⟩ := h.next (by decide)
    refine ⟨_, ?_, h⟩
    simp only [skipSerial, hserial, ok_bind]
    rw [if_neg (tlvAt_tag_ne _ _ (show (0x02 : Byte) ≠ tagCtx 0 by decide)), ok_bind, failIf_bind (fun h => h rfl)]
    rfl
  | some version =>
    obtain ⟨hversion, h⟩ := h.next (by decide)
    obtain ⟨hserial, h⟩ := h.next (by decide)
    refine ⟨_, ?_, h⟩
    simp only [skipSerial, hversion, ok_bind]
    rw [if_pos (show (tlvAt 0xa0 _ version).tag = tagCtx 0 from rfl), hserial, ok_bind, failIf_bind (fun h => h rfl)]
    rfl

theorem readName_eq {r : AsnReader} {name : Spec.X509.Element} {rest : Bytes} (h : At r (name.encode ++ rest)) :
    ∃ off r', readName 64 r = .ok (⟨off, name.encode⟩, r') ∧ At r' rest := by
  obtain ⟨hname, h'⟩ := h.next name.low
  refine ⟨r.span.off + r.pos, _, ?_, h'⟩
  rw [readName, hname, ok_bind]
  simp only
  rw [h.tlvView, ok_bind]
  rfl

/-! ## Extensions -/

/-- The OCTET STRING of an extension, after `critical` if that is there. -/
theorem extnValue_eq {xr : AsnReader} {critical : Option Bool} {value : Bytes}
    (h : At xr (optional boolean critical ++ (tlv 0x04 value ++ []))) :
    ∃ field xr' off, xr.next 64 = .ok (field, xr') ∧
      (if field.tag = tagBoolean then Prod.fst <$> xr'.next 64 else .ok field) = .ok (tlvAt 0x04 off value) := by
  cases critical with
  | none =>
    obtain ⟨hvalue, _⟩ := h.next (by decide)
    exact ⟨_, _, _, hvalue, if_neg (tlvAt_tag_ne _ _ (show (0x04 : Byte) ≠ tagBoolean by decide))⟩
  | some b =>
    obtain ⟨hcritical, h⟩ := h.next (by decide)
    obtain ⟨hvalue, _⟩ := h.next (by decide)
    refine ⟨_, _, xr.span.off + (xr.pos + (boolean b).length) + headerLen value.length, hcritical, ?_⟩
    rw [if_pos (show (tlvAt 0x01 _ [if b then 0xff else 0x00]).tag = tagBoolean from rfl), hvalue]
    rfl

/-- The first field of a basicConstraints that has one. -/
theorem caBool_eq {r : AsnReader} {ca : Option Bool} {pathLen : Option Bytes}
    (h : At r (optional boolean ca ++ optional (tlv 0x02) pathLen))
    (hne : optional boolean ca ++ optional (tlv 0x02) pathLen ≠ []) :
    (do let (caBool, _) ← r.next 64
        if caBool.tag = tagBoolean ∧ caBool.value.len = 1 then do
          let v ← readAt caBool.value.bytes 0
          return v != 0
        else return false) = (.ok (ca == some true) : Result Bool) := by
  cases ca with
  | none =>
    cases pathLen with
    | none => exact absurd rfl hne
    | some pathLen =>
      obtain ⟨hfirst, _⟩ := At.next (show At r (tlv 0x02 pathLen ++ []) by rw [List.append_nil]; exact h) (by decide)
      simp only [hfirst, ok_bind]
      rw [if_neg (fun h => tlvAt_tag_ne _ _ (show (0x02 : Byte) ≠ tagBoolean by decide) h.1)]
      rfl
  | some b =>
    obtain ⟨hfirst, _⟩ := h.next (by decide)
    simp only [hfirst, ok_bind]
    rw [if_pos ⟨rfl, rfl⟩]
    cases b <;> rfl

theorem basicConstraints_eq {xr : AsnReader} {critical ca : Option Bool} {pathLen : Option Bytes}
    (h : At xr (optional boolean critical ++
      (tlv 0x04 (sequence (optional boolean ca ++ optional (tlv 0x02) pathLen)) ++ []))) :
    basicConstraints 64 xr = .ok (ca == some true) := by
  have hlen := h.length_eq
  have hlt := h.len_lt
  obtain ⟨field, xr', off, hnext, hfield⟩ := extnValue_eq h
  generalize hvalue : optional boolean ca ++ optional (tlv 0x02) pathLen = value at *
  have hsz : (tlv 0x30 value).length < 2 ^ 64 := by
    rw [Spec.X509.sequence, List.length_append, List.length_append, length_tlv 0x04] at hlen
    omega
  have hseq := parseTlv_tlv 0x30 value [] off (by decide) (by rw [List.append_nil]; exact hsz)
  rw [List.append_nil] at hseq
  simp only [basicConstraints, hnext, hfield, ok_bind]
  rw [failIf_bind (fun h => h rfl), show (tlvAt 0x04 off (sequence value)).value = ⟨off, tlv 0x30 value⟩ from rfl, hseq,
    ok_bind]
  by_cases hempty : value = []
  · rw [if_neg (by subst hempty; simp [tlvAt, Span.len])]
    subst hempty
    cases ca with
    | none => rfl
    | some b => cases hvalue
  · rw [if_pos ⟨rfl, List.length_pos_iff.mpr hempty⟩]
    rw [length_tlv] at hsz
    have hat := at_init (off + headerLen value.length) (show value.length < 2 ^ 64 by omega)
    subst hvalue
    exact caBool_eq hat hempty

/-- One extension: its OID, and what it says of `is_ca`. -/
theorem extension_eq (e : Extension) : ∃ body, e.encode = tlv 0x30 body ∧ ∀ r, At r body →
    ∃ extOid xr, r.next 64 = .ok (extOid, xr) ∧
      (if oidEq extOid oidBasicConstraints then basicConstraints 64 xr else .ok false) = .ok e.isCa := by
  cases e with
  | basicConstraints critical ca pathLen =>
    refine ⟨_, rfl, ?_⟩
    intro r h
    obtain ⟨hoid, h⟩ := h.next (by decide)
    rw [← List.append_nil (tlv 0x04 _)] at h
    refine ⟨_, _, hoid, ?_⟩
    rw [if_pos (show oidEq (tlvAt 0x06 _ Spec.X509.idBasicConstraints) oidBasicConstraints = true from rfl)]
    exact basicConstraints_eq h
  | other id hid critical value =>
    refine ⟨_, rfl, ?_⟩
    intro r h
    obtain ⟨hoid, _⟩ := h.next (by decide)
    refine ⟨_, _, hoid, if_neg ?_⟩
    simp only [oidEq, tlvAt, Bool.and_eq_true, beq_iff_eq, not_and]
    exact fun _ => hid

/-- The loop over the extensions. -/
theorem extensionLoop_eq : ∀ (exts : List Extension) (fuel : Nat) (isCa : Bool) (er : AsnReader),
    At er (exts.flatMap Extension.encode) → (exts.flatMap Extension.encode).length < fuel →
    extensionLoop 64 fuel isCa er = .ok (isCa || exts.any Extension.isCa)
  | [], fuel + 1, isCa, er, h, _ => by
    rw [extensionLoop, if_pos (h.done.mpr rfl), List.any_nil, Bool.or_false]
  | e :: exts, fuel + 1, isCa, er, h, hfuel => by
    obtain ⟨body, hbody, hext⟩ := extension_eq e
    have hdone : er.done = true → False := fun hd => by
      have hnil := h.done.mp hd
      rw [List.flatMap_cons, hbody] at hnil
      cases hnil
    rw [List.flatMap_cons, hbody] at h
    rw [List.flatMap_cons, hbody, List.length_append, length_tlv] at hfuel
    have h2 := two_le_headerLen body.length
    have hlen := h.length_eq
    have hlt := h.len_lt
    rw [List.length_append, length_tlv] at hlen
    obtain ⟨hnext, h⟩ := h.next (by decide)
    obtain ⟨extOid, xr, hoid, hca⟩ := hext _ (at_init (er.span.off + er.pos + headerLen body.length)
      (show body.length < 2 ^ 64 by omega))
    rw [extensionLoop, if_neg hdone, hnext, ok_bind]
    simp only
    rw [failIf_bind (fun h => h rfl), show (tlvAt 0x30 (er.span.off + er.pos + headerLen body.length) body).value =
      ⟨er.span.off + er.pos + headerLen body.length, body⟩ from rfl, hoid, ok_bind]
    simp only
    rw [hca, ok_bind, extensionLoop_eq exts fuel _ _ h (by omega), List.any_cons, Bool.or_assoc]

theorem scanExtensions_eq (exts : List Extension) (isCa : Bool) (off : Nat)
    (hsz : (sequence (exts.flatMap Extension.encode)).length < 2 ^ 64) :
    scanExtensions 64 (tlvAt 0xa3 off (sequence (exts.flatMap Extension.encode))) isCa =
      .ok (isCa || exts.any Extension.isCa) := by
  generalize hlist : exts.flatMap Extension.encode = list at hsz ⊢
  have hseq := parseTlv_tlv 0x30 list [] off (by decide) (by rw [List.append_nil]; exact hsz)
  rw [List.append_nil] at hseq
  rw [Spec.X509.sequence, length_tlv] at hsz
  have hat := at_init (off + headerLen list.length) (show list.length < 2 ^ 64 by omega)
  rw [scanExtensions, show (tlvAt 0xa3 off (Spec.X509.sequence list)).value = ⟨off, tlv 0x30 list⟩ from rfl, hseq, ok_bind,
    failIf_bind (fun h => h rfl)]
  subst hlist
  exact extensionLoop_eq exts _ isCa _ hat (Nat.lt_succ_self _)

/-! ## The optional fields -/

/-- A field of the loop that is not the extensions. -/
theorem optionalLoop_skip {r : AsnReader} {tag : Byte} {value : Option Bytes} {rest : Bytes} {fuel : Nat} (isCa : Bool)
    (htag : tag &&& 0x1F ≠ 0x1F) (hne : tag ≠ tagCtx 3) (h : At r (optional (tlv tag) value ++ rest))
    (hfuel : (optional (tlv tag) value ++ rest).length < fuel) :
    ∃ fuel' r', optionalLoop 64 fuel isCa r = optionalLoop 64 fuel' isCa r' ∧ At r' rest ∧ rest.length < fuel' := by
  cases value with
  | none => exact ⟨fuel, r, rfl, h, hfuel⟩
  | some value =>
    have hdone : r.done = true → False := fun hd => by cases h.done.mp hd
    obtain ⟨fuel, rfl⟩ : ∃ n, fuel = n + 1 := ⟨fuel - 1, by omega⟩
    have h2 := two_le_headerLen value.length
    obtain ⟨hnext, h'⟩ := h.next htag
    refine ⟨fuel, _, ?_, h', ?_⟩
    · rw [optionalLoop, if_neg hdone, hnext, ok_bind]
      simp only
      rw [if_neg (tlvAt_tag_ne _ _ hne), ok_bind]
    · rw [Spec.X509.optional, List.length_append, length_tlv] at hfuel
      omega

theorem optionalLoop_eq {t : Tbs} {r : AsnReader} {fuel : Nat} (h : At r t.tail) (hfuel : t.tail.length < fuel) :
    optionalLoop 64 fuel false r = .ok t.isCa := by
  obtain ⟨fuel, r, hskip₁, h, hfuel⟩ := optionalLoop_skip false (by decide) (by decide) h hfuel
  obtain ⟨fuel, r, hskip₂, h, hfuel⟩ := optionalLoop_skip false (by decide) (by decide) h hfuel
  rw [hskip₁, hskip₂, Tbs.isCa]
  cases hexts : t.extensions with
  | none =>
    rw [hexts] at h
    obtain ⟨fuel, rfl⟩ : ∃ n, fuel = n + 1 := ⟨fuel - 1, by omega⟩
    rw [optionalLoop, if_pos (h.done.mpr rfl)]
    rfl
  | some exts =>
    rw [hexts, ← List.append_nil (Spec.X509.optional _ _)] at h
    have hlen := h.length_eq
    have hlt := h.len_lt
    obtain ⟨fuel, rfl⟩ : ∃ n, fuel = n + 1 := ⟨fuel - 1, by omega⟩
    have hdone : r.done = true → False := fun hd => by cases h.done.mp hd
    obtain ⟨hnext, h⟩ := h.next (by decide)
    rw [Spec.X509.optional, List.append_nil, length_tlv] at hlen
    rw [hexts, Spec.X509.optional, length_tlv] at hfuel
    have h2 := two_le_headerLen (Spec.X509.sequence (exts.flatMap Extension.encode)).length
    obtain ⟨fuel, rfl⟩ : ∃ n, fuel = n + 1 := ⟨fuel - 1, by omega⟩
    rw [optionalLoop, if_neg hdone, hnext, ok_bind]
    simp only
    rw [if_pos (show (tlvAt 0xa3 _ _).tag = tagCtx 3 from rfl), scanExtensions_eq exts false _ (by omega), ok_bind,
      optionalLoop, if_pos (h.done.mpr rfl)]
    rfl

/-! ## Certificates -/

/-- The inside of a TBSCertificate. -/
theorem parseTbs_eq (t : Tbs) (off : Nat) (hsz : t.body.length < 2 ^ 64) : ∃ i j, parseTbs 64 (tlvAt 0x30 off t.body) =
    .ok ⟨⟨i, t.issuer.encode⟩, ⟨j, t.subject.encode⟩, (t.notBefore.canonical, t.notAfter.canonical), (t.qx, t.qy), t.isCa⟩ := by
  have hat := at_init off hsz
  rw [parseTbs, show (tlvAt 0x30 off t.body).value = ⟨off, t.body⟩ from rfl]
  generalize AsnReader.init _ = r at hat ⊢
  obtain ⟨r, hserial, hat⟩ := skipSerial_eq hat
  obtain ⟨hsigAlg, hat⟩ := hat.next t.signature.low
  obtain ⟨i, r, hissuer, hat⟩ := readName_eq hat
  have hlen := hat.length_eq
  have hlt := hat.len_lt
  obtain ⟨hvalidity, hat⟩ := hat.next (by decide)
  obtain ⟨j, r', hsubject, hat⟩ := readName_eq hat
  obtain ⟨hspki, hat⟩ := hat.next (by decide)
  have htail := hat.length_eq
  have htimes : (t.notBefore.encode ++ t.notAfter.encode).length < 2 ^ 64 := by
    rw [Tbs.validity, Spec.X509.sequence, List.length_append, length_tlv] at hlen
    omega
  refine ⟨i, j, ?_⟩
  simp only [hserial, hsigAlg, hissuer, hvalidity, hsubject, hspki, ok_bind, parseValidity_encode _ _ _ htimes,
    parseSpki_eq t.onCurve]
  rw [optionalLoop_eq hat (by rw [htail]; omega)]
  rfl

/-- The certificate that is parsed from the encoding: its fields, and views of it. -/
def parsed (t : Tbs) (r s : BytesN 32) (tbsOff issuerOff subjectOff : Nat) : X509Cert where
  tbsDer := ⟨tbsOff, t.encode⟩
  issuerDer := ⟨issuerOff, t.issuer.encode⟩
  subjectDer := ⟨subjectOff, t.subject.encode⟩
  notBefore := t.notBefore.canonical
  notAfter := t.notAfter.canonical
  pubkeyQx := t.qx
  pubkeyQy := t.qy
  isCa := t.isCa
  sigR := r
  sigS := s

/-- The value of the outer SEQUENCE. -/
def outer (t : Tbs) (r s : BytesN 32) : Bytes :=
  t.encode ++ (sequence (oid Spec.X509.ecdsaWithSha256) ++ bitString (signatureDer r s))

theorem x509Parse_certificate (t : Tbs) (r s : BytesN 32)
    (hsz : (Spec.X509.certificate t (beNat r.1) (beNat s.1)).length < 2 ^ 64) :
    ∃ i j, x509Parse 64 (Spec.X509.certificate t (beNat r.1) (beNat s.1)) =
      .ok (parsed t r s (headerLen (outer t r s).length) i j) := by
  rw [Spec.X509.certificate, ← signatureDer_eq, ← outer, Spec.X509.sequence] at hsz ⊢
  have hcert := parseTlv_tlv 0x30 (outer t r s) [] 0 (by decide) (by rw [List.append_nil]; exact hsz)
  rw [List.append_nil, Nat.zero_add] at hcert
  rw [length_tlv] at hsz
  have hat := at_init (headerLen (outer t r s).length) (show (outer t r s).length < 2 ^ 64 by omega)
  have htbs : t.body.length < 2 ^ 64 := by
    rw [outer, List.length_append, Tbs.encode, Spec.X509.sequence, length_tlv] at hsz
    omega
  rw [x509Parse, Span.ofBytes, hcert, ok_bind, failIf_bind (fun h => h rfl)]
  simp only
  rw [show (tlvAt 0x30 (headerLen (outer t r s).length) (outer t r s)).value =
    ⟨headerLen (outer t r s).length, outer t r s⟩ from rfl]
  have hview := At.tlvView (show At (AsnReader.init ⟨headerLen (outer t r s).length, outer t r s⟩)
    (tlv 0x30 t.body ++ (sequence (oid Spec.X509.ecdsaWithSha256) ++ bitString (signatureDer r s))) from hat)
  obtain ⟨hnext, hat⟩ := hat.next (by decide)
  obtain ⟨hsigAlg, hat⟩ := hat.next (by decide)
  rw [bitString, ← List.append_nil (tlv 0x03 _)] at hat
  obtain ⟨hsigVal, _⟩ := hat.next (by decide)
  obtain ⟨i, j, hparse⟩ := parseTbs_eq t _ htbs
  refine ⟨i, j, ?_⟩
  rw [hnext, ok_bind]
  simp only
  rw [failIf_bind (fun h => h rfl), hview, ok_bind, hsigAlg, ok_bind]
  simp only
  rw [checkSigAlg_eq, ok_bind, hsigVal, ok_bind]
  simp only
  rw [parseSigVal_eq, ok_bind]
  simp only
  rw [hparse, ok_bind]
  rfl

/-- `nd_x509_parse` undoes the encoding of every certificate of the profile. -/
theorem parse_undoes_encode (t : Tbs) (r s : BytesN 32)
    (hsz : (Spec.X509.certificate t (beNat r.1) (beNat s.1)).length < 2 ^ 64) :
    ∃ c, x509Parse 64 (Spec.X509.certificate t (beNat r.1) (beNat s.1)) = .ok c ∧
      c.tbsDer.bytes = t.encode ∧ c.issuerDer.bytes = t.issuer.encode ∧ c.subjectDer.bytes = t.subject.encode ∧
      c.notBefore = t.notBefore.canonical ∧ c.notAfter = t.notAfter.canonical ∧ c.pubkeyQx = t.qx ∧ c.pubkeyQy = t.qy ∧
      c.sigR = r ∧ c.sigS = s ∧
      (c.isCa = true ↔ ∃ exts, t.extensions = some exts ∧
        ∃ critical pathLen, Extension.basicConstraints critical (some true) pathLen ∈ exts) := by
  obtain ⟨i, j, hparse⟩ := x509Parse_certificate t r s hsz
  refine ⟨_, hparse, rfl, rfl, rfl, rfl, rfl, rfl, rfl, rfl, rfl, ?_⟩
  change (t.extensions.getD []).any Extension.isCa = true ↔ _
  rw [List.any_eq_true]
  constructor
  · intro h
    rcases h with ⟨e, he, hca⟩
    cases hexts : t.extensions with
    | none =>
      rw [hexts] at he
      cases he
    | some exts =>
      rw [hexts] at he
      cases e with
      | basicConstraints critical ca pathLen =>
        have hca : ca = some true := by simpa [Extension.isCa] using hca
        subst hca
        exact ⟨exts, rfl, critical, pathLen, he⟩
      | other => cases hca
  · intro h
    rcases h with ⟨exts, hexts, critical, pathLen, he⟩
    rw [hexts]
    exact ⟨_, he, by simp [Extension.isCa]⟩

/-- The Name with one common name. -/
def commonName (name : Bytes) : Element :=
  ⟨0x30, tlv 0x31 (sequence (oid [0x55, 0x04, 0x03] ++ tlv 0x0c name)), by decide⟩

theorem sampleKey_onCurve : Spec.Ecdsa.OnCurve (beNat (beBytes 32 Spec.Ecdsa.gx)) (beNat (beBytes 32 P256.Signer.keyY)) := by
  rw [beNat_beBytes, beNat_beBytes, Nat.mod_eq_of_lt (by decide), Nat.mod_eq_of_lt (by decide)]
  exact ⟨by decide, by decide, P256.Signer.key_on_curve⟩

/-- A leaf with the key of `Signer`: common name `localhost`, issued by `nano-dtls test CA`, with
basicConstraints and keyUsage. -/
def sampleTbs : Tbs where
  version := some [0x02, 0x01, 0x02]
  serial := [0x01]
  signature := ⟨0x30, oid Spec.X509.ecdsaWithSha256, by decide⟩
  issuer := commonName [0x6e, 0x61, 0x6e, 0x6f, 0x2d, 0x64, 0x74, 0x6c, 0x73, 0x20, 0x74, 0x65, 0x73, 0x74, 0x20, 0x43, 0x41]
  notBefore := .utc [0x32, 0x35, 0x30, 0x31, 0x30, 0x31, 0x30, 0x30, 0x30, 0x30, 0x30, 0x30] (by unfold Spec.X509.Digits; decide)
  notAfter := .generalized [0x32, 0x30, 0x39, 0x39, 0x30, 0x31, 0x30, 0x31, 0x30, 0x30, 0x30, 0x30, 0x30, 0x30]
    (by unfold Spec.X509.Digits; decide)
  subject := commonName [0x6c, 0x6f, 0x63, 0x61, 0x6c, 0x68, 0x6f, 0x73, 0x74]
  qx := ⟨beBytes 32 Spec.Ecdsa.gx, by simp⟩
  qy := ⟨beBytes 32 P256.Signer.keyY, by simp⟩
  issuerUniqueId := none
  subjectUniqueId := none
  extensions := some [.basicConstraints (some true) none none,
    .other [0x55, 0x1d, 0x0f] (by decide) (some true) [0x03, 0x02, 0x07, 0x80]]
  onCurve := sampleKey_onCurve

theorem length_outer_sample (r s : BytesN 32) : 256 ≤ (outer sampleTbs r s).length ∧ (outer sampleTbs r s).length ≤ 400 := by
  have htbs : sampleTbs.encode.length = 234 := by decide +kernel
  have hsig := length_signatureDer r s
  have hlow : 8 ≤ (signatureDer r s).length := by
    have hr := two_le_headerLen (integerContent r).length
    have hs := two_le_headerLen (integerContent s).length
    have hr' := length_integerContent_pos r
    have hs' := length_integerContent_pos s
    have h := two_le_headerLen (tlv tagInteger (integerContent r) ++ tlv tagInteger (integerContent s)).length
    rw [signatureDer, length_tlv, List.length_append, length_tlv, length_tlv]
    rw [List.length_append, length_tlv, length_tlv] at h
    omega
  have halg : (sequence (oid Spec.X509.ecdsaWithSha256)).length = 12 := by decide
  rw [outer, List.length_append, List.length_append, htbs, halg, bitString, length_tlv, List.length_append,
    List.length_singleton, headerLen_short (by omega)]
  omega

theorem parse_undoes_encode_sample :
    (Spec.X509.certificate sampleTbs (beNat (zeros 32).1) (beNat (zeros 32).1)).length < 2 ^ 64 ∧
    ∃ c, x509Parse 64 (Spec.X509.certificate sampleTbs (beNat (zeros 32).1) (beNat (zeros 32).1)) = .ok c ∧
      c.tbsDer.bytes = sampleTbs.encode ∧ c.issuerDer.bytes = sampleTbs.issuer.encode ∧
      c.notBefore = 20250101000000 ∧ c.notAfter = 20990101000000 ∧ c.isCa = false := by
  have hsz : (Spec.X509.certificate sampleTbs (beNat (zeros 32).1) (beNat (zeros 32).1)).length < 2 ^ 64 := by decide +kernel
  obtain ⟨c, hparse, htbs, hissuer, _, hbefore, hafter, _, _, _, _, hca⟩ := parse_undoes_encode sampleTbs (zeros 32) (zeros 32) hsz
  refine ⟨hsz, c, hparse, htbs, hissuer, hbefore.trans (by decide), hafter.trans (by decide), ?_⟩
  rw [Bool.eq_false_iff]
  intro h
  obtain ⟨exts, hexts, critical, pathLen, hmem⟩ := hca.mp h
  cases hexts
  simp at hmem

end ND.Proof.X509
