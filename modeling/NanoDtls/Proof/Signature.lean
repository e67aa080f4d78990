import NanoDtls.Proof.Asn1

/-!
# Strict signatures

A reader of an ECDSA-Sig-Value accepts lengths in more octets than needed,
INTEGERs with superfluous zeros, and bytes after the second INTEGER and after
the SEQUENCE (`lax_signatures`). What it accepts is what
`nd_asn1_write_ecdsa_sig_value` writes for the two numbers if and only if it
has none of these (`Strict`, `written_iff_strict`). Whatever is written is read
back (`signature_round_trip`).
-/

namespace ND.Proof.Asn1

open ND.Impl ND.Impl.Asn1
open Spec.X509 (tlv lengthOctets)
open Proof.Record (bytesN_eq_ok readSlice_append)

/-- Content octets of an INTEGER without a superfluous zero: the first nine bits are not all zero. -/
def MinimalContent (c : Bytes) : Prop := c.length ≤ 1 ∨ c.getD 0 0 ≠ 0 ∨ c.getD 1 0 &&& 0x80 ≠ 0

/-- The lengths of the SEQUENCE and the INTEGERs are in one octet each and add up to the whole string, and the
INTEGERs are minimal. -/
def Strict (sig : Bytes) : Prop :=
  let seqLen := (sig.getD 1 0).toNat
  let rLen := (sig.getD 3 0).toNat
  let sLen := (sig.getD (5 + rLen) 0).toNat
  seqLen < 128 ∧ sig.length = 2 + seqLen ∧ seqLen = 4 + rLen + sLen ∧
    MinimalContent ((sig.drop 4).take rLen) ∧ MinimalContent ((sig.drop (6 + rLen)).take sLen)

instance (c : Bytes) : Decidable (MinimalContent c) := inferInstanceAs (Decidable (_ ∨ _ ∨ _))

instance (sig : Bytes) : Decidable (Strict sig) := inferInstanceAs (Decidable (_ ∧ _ ∧ _ ∧ _ ∧ _))

/-! ## Integers -/

theorem dropZeros_of_head {b : Byte} {l : Bytes} (h : l = [] ∨ b ≠ 0) : dropZeros (b :: l) = b :: l := by
  cases l with
  | nil => rfl
  | cons c l =>
    have hb : b ≠ 0 := h.resolve_left (by simp)
    rw [dropZeros, if_neg hb]
    simp

theorem dropZeros_replicate {b : Byte} {l : Bytes} (h : l = [] ∨ b ≠ 0) (k : Nat) :
    dropZeros (List.replicate k 0 ++ b :: l) = b :: l := by
  induction k with
  | zero => exact dropZeros_of_head h
  | succ k ih =>
    rw [List.replicate_succ, List.cons_append, dropZeros, if_pos rfl, ih]
    simp

/-- Minimal content octets are those of the number that is read from them. -/
theorem integerContent_of_read {t : Tlv} {v : BytesN 32} (h : readUintFixed t 32 = .ok v)
    (hmin : MinimalContent t.value.bytes) : t.tag = tagInteger ∧ t.value.bytes = integerContent v := by
  unfold readUintFixed at h
  simp only [bind_eq_ok, failIf_eq_ok, exists_const, not_not] at h
  obtain ⟨htag, -, p0, hp0, -, top, htop, hsign, hbytes⟩ := h
  refine ⟨htag, ?_⟩
  rw [Span.len] at htop hsign hbytes
  rw [bytesN_eq_ok] at hbytes
  generalize t.value.bytes = c at *
  cases c with
  | nil => cases hp0
  | cons b l =>
    obtain rfl : b = p0 := Except.ok.inj hp0
    rw [integerContent]
    by_cases hstrip : 1 < (b :: l).length ∧ b = 0
    · -- a zero byte was stripped: the next one has its top bit set
      obtain ⟨hlen, rfl⟩ := hstrip
      cases l with
      | nil => simp at hlen
      | cons d l =>
        have hd : d &&& 0x80 ≠ 0 := by simpa [MinimalContent] using hmin
        have hd0 : d ≠ 0 := by
          rintro rfl
          exact hd rfl
        have hyes : (decide (1 < (0 :: d :: l : Bytes).length) && (0 : Byte) == 0) = true := by simp
        have hdigits : dropZeros v.1 = d :: l := by
          rw [← hbytes, hyes, if_pos rfl]
          exact dropZeros_replicate (.inr hd0) _
        rw [hdigits, List.headD_cons, if_pos (by simpa using hd)]
        rfl
    · have hnot : (decide (1 < (b :: l).length) && b == 0) = false := by simpa using hstrip
      have hhead : l = [] ∨ b ≠ 0 := by
        cases l with
        | nil => exact .inl rfl
        | cons d l => exact .inr fun hb => hstrip ⟨by simp, hb⟩
      simp only [hnot, Bool.false_eq_true, ↓reduceIte, true_and, not_not] at htop hsign hbytes
      obtain rfl : b = top := Except.ok.inj htop
      have hdigits : dropZeros v.1 = b :: l := by
        rw [← hbytes]
        exact dropZeros_replicate hhead _
      rw [hdigits, List.headD_cons, hsign]
      rfl

/-- The content octets that are written are minimal. -/
theorem minimalContent_integerContent (v : BytesN 32) : MinimalContent (integerContent v) := by
  have hhead := @dropZeros_head v.1
  rw [integerContent]
  generalize dropZeros v.1 = d at hhead ⊢
  cases d with
  | nil => exact .inl (by simp)
  | cons b l =>
    by_cases hb : b &&& 0x80 = 0
    · rw [List.headD_cons, hb, if_neg (by simp), List.nil_append]
      by_cases hl : 1 < (b :: l).length
      · exact .inr (.inl (by simpa using hhead hl))
      · exact .inl (by omega)
    · rw [List.headD_cons, if_pos (by simpa using hb)]
      exact .inr (.inr hb)

/-! ## Signatures -/

/-- A string with its length in the second byte is a TLV. -/
theorem eq_tlv_of_short {l : Bytes} {n : Nat} (hn : (l.getD 1 0).toNat = n) (hshort : n < 128) (hlen : 2 + n ≤ l.length) :
    l = tlv (l.getD 0 0) ((l.drop 2).take n) ++ l.drop (2 + n) := by
  cases l with
  | nil => simp at hlen
  | cons t l =>
    cases l with
    | nil => simp at hlen; omega
    | cons m l =>
      have hm : BitVec.ofNat 8 n = m := by
        rw [← hn, List.getD_cons_succ, List.getD_cons_zero, BitVec.ofNat_toNat, BitVec.setWidth_eq]
      have htake : (((t :: m :: l).drop 2).take n).length = n := by
        rw [List.length_take, List.length_drop]
        omega
      rw [tlv, htake, lengthOctets, if_pos hshort, hm, Nat.add_comm 2 n, List.getD_cons_zero]
      simp only [List.drop_succ_cons, List.drop_zero, List.cons_append, List.nil_append,
        List.take_append_drop]

theorem getD_drop (l : Bytes) (i j : Nat) : (l.drop i).getD j 0 = l.getD (i + j) 0 := by
  rw [List.getD_eq_getElem?_getD, List.getD_eq_getElem?_getD, List.getElem?_drop]

/-- A strict string is a TLV of two TLVs. -/
theorem Strict.shape {sig : Bytes} (h : Strict sig) : ∃ t₀ t₁ t₂ rc sc,
    sig = tlv t₀ (tlv t₁ rc ++ tlv t₂ sc) ∧ MinimalContent rc ∧ MinimalContent sc ∧ rc.length + sc.length < 124 := by
  obtain ⟨hseq, hlen, hsum, hr, hs⟩ := h
  generalize ha : (sig.getD 3 0).toNat = a at *
  generalize hb : (sig.getD (5 + a) 0).toNat = b at *
  generalize hn : (sig.getD 1 0).toNat = n at *
  have hsig := eq_tlv_of_short hn hseq (by omega)
  have hbody := eq_tlv_of_short (l := sig.drop 2) (n := a) (by rw [getD_drop, ha]) (by omega)
    (by rw [List.length_drop]; omega)
  have hrest := eq_tlv_of_short (l := sig.drop (4 + a)) (n := b) (by rw [getD_drop, ← hb]; congr 2; omega) (by omega)
    (by rw [List.length_drop]; omega)
  -- nothing follows the SEQUENCE, nor the second INTEGER in it
  have hend : sig.drop (2 + n) = [] := List.drop_eq_nil_of_le (by omega)
  have hend' : sig.drop (4 + a + (2 + b)) = [] := List.drop_eq_nil_of_le (by omega)
  have hall : (sig.drop 2).take n = sig.drop 2 := List.take_of_length_le (by rw [List.length_drop]; omega)
  rw [hend, List.append_nil, hall] at hsig
  rw [List.drop_drop, List.drop_drop, show 2 + (2 + a) = 4 + a by omega] at hbody
  rw [List.drop_drop, List.drop_drop, hend', List.append_nil, show 4 + a + 2 = 6 + a by omega] at hrest
  refine ⟨sig.getD 0 0, (sig.drop 2).getD 0 0, (sig.drop (4 + a)).getD 0 0, _, _, hsig.trans ?_, hr, hs, ?_⟩
  · rw [← hrest, ← hbody]
  · simp only [List.length_take, List.length_drop]
    omega

/-- The tag of a TLV that is parsed is its first byte, and one of the low form. -/
theorem tag_of_parseTlv {t : Tlv} {off : Nat} {b : Byte} {l : Bytes} (h : parseTlv 64 ⟨off, b :: l⟩ = .ok t) :
    b &&& 0x1F ≠ 0x1F := by
  unfold parseTlv at h
  simp only [bind_eq_ok, failIf_eq_ok, exists_const] at h
  obtain ⟨-, tag, htag, hlow, -⟩ := h
  obtain rfl : b = tag := Except.ok.inj htag
  exact hlow

/-- What is parsed from a TLV, if anything is. -/
theorem parseTlv_of_ok {t : Tlv} {tag : Byte} {value rest : Bytes} {off : Nat}
    (h : parseTlv 64 ⟨off, tlv tag value ++ rest⟩ = .ok t) (hsz : (tlv tag value ++ rest).length < 2 ^ 64) :
    t = tlvAt tag (off + headerLen value.length) value := by
  have htag : tag &&& 0x1F ≠ 0x1F := tag_of_parseTlv h
  rw [parseTlv_tlv tag value rest off htag hsz] at h
  exact (Except.ok.inj h).symm

/-- What a reader reads from a TLV, if anything. -/
theorem At.next_of_ok {r r' : AsnReader} {t : Tlv} {tag : Byte} {value rest : Bytes} (h : At r (tlv tag value ++ rest))
    (hok : r.next 64 = .ok (t, r')) :
    t = tlvAt tag (r.span.off + r.pos + headerLen value.length) value ∧ At r' rest := by
  have htag : tag &&& 0x1F ≠ 0x1F := by
    have hsub := At.sub (show At r ((tlv tag value ++ rest) ++ []) by rw [List.append_nil]; exact h)
    have hpos : r.span.len - r.pos = (tlv tag value ++ rest).length := by
      have := h.length_eq
      omega
    have hnext := hok
    rw [AsnReader.next, hpos, hsub] at hnext
    simp only [bind_eq_ok, failIf_eq_ok, exists_const, ok_bind] at hnext
    obtain ⟨-, t', ht', -⟩ := hnext
    exact tag_of_parseTlv ht'
  obtain ⟨hnext, hat⟩ := h.next htag
  rw [hnext, Except.ok.injEq, Prod.mk.injEq] at hok
  obtain ⟨rfl, rfl⟩ := hok
  exact ⟨rfl, hat⟩

/-- A strict string is the DER form of what is read from it. -/
theorem signatureDer_of_strict {sig : Bytes} {off : Nat} {r s : BytesN 32} (hstrict : Strict sig)
    (h : readEcdsaSigValue 64 ⟨off, sig⟩ = .ok (r, s)) : sig = signatureDer r s := by
  obtain ⟨t₀, t₁, t₂, rc, sc, rfl, hr, hs, hlen⟩ := hstrict.shape
  unfold readEcdsaSigValue at h
  simp only [bind_eq_ok, failIf_eq_ok, exists_const, Prod.exists, pure_eq_ok, Except.ok.injEq, Prod.mk.injEq] at h
  obtain ⟨seq, hseq, htag, rt, rd, hrt, st, _, hst, r', hr', s', hs', rfl, rfl⟩ := h
  have hshort : ∀ (t : Byte) (c : Bytes), c.length < 128 → (tlv t c).length = 2 + c.length := by
    intro t c hc
    rw [length_tlv, headerLen_short hc]
  have hbody : (tlv t₁ rc ++ tlv t₂ sc).length = 4 + rc.length + sc.length := by
    rw [List.length_append, hshort _ _ (by omega), hshort _ _ (by omega)]
    omega
  rw [← List.append_nil (tlv t₀ _)] at hseq
  obtain rfl := parseTlv_of_ok hseq (by rw [List.append_nil, hshort _ _ (by omega)]; omega)
  obtain ⟨rfl, hat⟩ := (at_init _ (show (tlv t₁ rc ++ tlv t₂ sc).length < 2 ^ 64 by omega)).next_of_ok hrt
  rw [← List.append_nil (tlv t₂ sc)] at hat
  obtain ⟨rfl, -⟩ := hat.next_of_ok hst
  obtain ⟨hrtag, hrc⟩ := integerContent_of_read hr' hr
  obtain ⟨hstag, hsc⟩ := integerContent_of_read hs' hs
  simp only [tlvAt, not_not] at htag hrtag hstag hrc hsc
  rw [signatureDer, htag, hrtag, hstag, hrc, hsc]

theorem tlv_short (t : Byte) {c : Bytes} (h : c.length < 128) : tlv t c = t :: BitVec.ofNat 8 c.length :: c := by
  rw [tlv, lengthOctets, if_pos h]
  rfl

/-- The DER form is strict. -/
theorem strict_signatureDer (r s : BytesN 32) : Strict (signatureDer r s) := by
  have hr := minimalContent_integerContent r
  have hs := minimalContent_integerContent s
  have hrl := length_integerContent r
  have hsl := length_integerContent s
  have hbody := length_signatureBody r s
  rw [signatureDer, tlv_short _ (by omega), tlv_short _ (by omega), tlv_short _ (by omega)]
  generalize integerContent r = rc at *
  generalize integerContent s = sc at *
  have hval : ∀ n < 128, (BitVec.ofNat 8 n).toNat = n := by
    intro n hn
    rw [BitVec.toNat_ofNat, Nat.mod_eq_of_lt (by omega)]
  generalize hsig : tagSequence :: BitVec.ofNat 8 (tagInteger :: BitVec.ofNat 8 rc.length :: rc ++
    tagInteger :: BitVec.ofNat 8 sc.length :: sc).length :: (tagInteger :: BitVec.ofNat 8 rc.length :: rc ++
    tagInteger :: BitVec.ofNat 8 sc.length :: sc) = sig
  have hlen : sig.length = 6 + rc.length + sc.length := by
    rw [← hsig]
    simp only [List.length_cons, List.length_append]
    omega
  have h1 : (sig.getD 1 0).toNat = 4 + rc.length + sc.length := by
    rw [← hsig, List.getD_cons_succ, List.getD_cons_zero, hval _ (by simp only [List.length_cons, List.length_append]; omega)]
    simp only [List.length_cons, List.length_append]
    omega
  have h3 : (sig.getD 3 0).toNat = rc.length := by
    rw [← hsig]
    exact hval _ (by omega)
  have hdrop : sig.drop 4 = rc ++ tagInteger :: BitVec.ofNat 8 sc.length :: sc := by
    rw [← hsig]
    rfl
  have hdrop' : sig.drop (4 + rc.length) = tagInteger :: BitVec.ofNat 8 sc.length :: sc := by
    rw [← List.drop_drop, hdrop, List.drop_left]
  have h5 : (sig.getD (5 + rc.length) 0).toNat = sc.length := by
    rw [show 5 + rc.length = 4 + rc.length + 1 by omega, ← getD_drop, hdrop']
    exact hval _ (by omega)
  have hdrop6 : sig.drop (6 + rc.length) = sc := by
    rw [show 6 + rc.length = 4 + rc.length + 2 by omega, ← List.drop_drop, hdrop']
    rfl
  simp only [Strict, h1, h3, h5, hlen, hdrop, hdrop6, List.take_left, List.take_length]
  exact ⟨by omega, by omega, trivial, hr, hs⟩

/-- A signature that is accepted is the one that is written for its numbers if and only if it is strict. -/
theorem written_iff_strict {sig : Bytes} {off : Nat} {r s : BytesN 32}
    (h : readEcdsaSigValue 64 ⟨off, sig⟩ = .ok (r, s)) : (∃ cap, writeEcdsaSigValue r s cap = .ok sig) ↔ Strict sig := by
  constructor
  · rintro ⟨cap, hw⟩
    obtain ⟨-, rfl⟩ := writeEcdsaSigValue_eq_ok.mp hw
    exact strict_signatureDer r s
  · intro hstrict
    exact ⟨_, writeEcdsaSigValue_eq_ok.mpr ⟨le_rfl, (signatureDer_of_strict hstrict h).symm⟩⟩

/-- The number 1. -/
def bytesOne : BytesN 32 := ⟨beBytes 32 1, length_beBytes 32 1⟩

theorem written_iff_strict_one : Strict [0x30, 6, 2, 1, 1, 2, 1, 1] ∧
    ∃ cap, writeEcdsaSigValue bytesOne bytesOne cap = .ok [0x30, 6, 2, 1, 1, 2, 1, 1] :=
  ⟨by decide, (@written_iff_strict _ 0 _ _ (by decide)).mpr (by decide)⟩

/-- Four other strings with the numbers 1 and 1 are accepted: with a length in two octets, with a superfluous zero,
with a byte after the second INTEGER, and with one after the SEQUENCE. -/
theorem lax_signatures :
    readEcdsaSigValue 64 ⟨0, [0x30, 0x81, 6, 2, 1, 1, 2, 1, 1]⟩ = .ok (bytesOne, bytesOne) ∧
    readEcdsaSigValue 64 ⟨0, [0x30, 7, 2, 2, 0, 1, 2, 1, 1]⟩ = .ok (bytesOne, bytesOne) ∧
    readEcdsaSigValue 64 ⟨0, [0x30, 7, 2, 1, 1, 2, 1, 1, 0]⟩ = .ok (bytesOne, bytesOne) ∧
    readEcdsaSigValue 64 ⟨0, [0x30, 6, 2, 1, 1, 2, 1, 1, 0]⟩ = .ok (bytesOne, bytesOne) ∧
    writeEcdsaSigValue bytesOne bytesOne 80 = .ok [0x30, 6, 2, 1, 1, 2, 1, 1] := by
  decide +kernel

/-! ## Round trip -/

variable {w : Nat}

/-- A TLV with one length octet, for every width of `size_t`. -/
theorem parseTlv_short (hw : 16 ≤ w) {tag : Byte} {value : Bytes} (rest : Bytes) (off : Nat) (htag : tag &&& 0x1F ≠ 0x1F)
    (hlen : value.length < 128) :
    parseTlv w ⟨off, tlv tag value ++ rest⟩ = .ok ⟨tag, tag &&& 0x20 != 0, 2, ⟨off + 2, value⟩⟩ := by
  have hpow : 2 ^ 16 ≤ 2 ^ w := Nat.pow_le_pow_right (by decide) hw
  have hoctet : (BitVec.ofNat 8 value.length).toNat = value.length := by
    rw [BitVec.toNat_ofNat]
    omega
  have hvalue : readSlice (tag :: BitVec.ofNat 8 value.length :: (value ++ rest)) 2 value.length = .ok value :=
    readSlice_append [tag, BitVec.ofNat 8 value.length] value rest rfl rfl rfl
  have hparse : parseLen w ⟨off, tag :: BitVec.ofNat 8 value.length :: (value ++ rest)⟩ (BitVec.ofNat 8 value.length) =
      .ok (2, value.length) := by
    rw [parseLen, if_pos (shortLength_bit _ hlen), hoctet, Nat.mod_eq_of_lt (by omega)]
    rfl
  rw [tlv_short tag hlen, List.cons_append, List.cons_append, parseTlv, failIf_bind (by simp [Span.len])]
  simp only [readAt, List.getElem?_cons_zero, List.getElem?_cons_succ, ok_bind]
  rw [failIf_bind htag, hparse, ok_bind]
  simp only
  rw [Nat.mod_eq_of_lt (by omega), failIf_bind (by omega),
    failIf_bind (by simp only [Span.len, List.length_cons, List.length_append]; omega), Span.sub, hvalue]
  rfl

/-- An INTEGER that was written, read near the start of the input. -/
theorem next_integer (hw : 16 ≤ w) {r : AsnReader} (v : BytesN 32) (rest : Bytes) (hpos : r.pos < 2 ^ 15)
    (hdrop : r.span.bytes.drop r.pos = tlv tagInteger (integerContent v) ++ rest) :
    ∃ t, r.next w = .ok (t, advance r (tlv tagInteger (integerContent v)).length) ∧ readUintFixed t 32 = .ok v := by
  have hpow : 2 ^ 16 ≤ 2 ^ w := Nat.pow_le_pow_right (by decide) hw
  have hlen := length_integerContent v
  have hsize : (tlv tagInteger (integerContent v)).length = 2 + (integerContent v).length := by
    rw [length_tlv, headerLen_short (by omega)]
  have hrest : r.span.bytes.length - r.pos = 2 + (integerContent v).length + rest.length := by
    rw [← List.length_drop, hdrop, List.length_append, hsize]
  have hsub : r.span.sub r.pos (r.span.len - r.pos) = .ok ⟨r.span.off + r.pos, tlv tagInteger (integerContent v) ++ rest⟩ := by
    rw [Span.sub, Span.len, readSlice, if_pos (by omega), List.take_of_length_le (by rw [List.length_drop]), hdrop]
    rfl
  refine ⟨_, ?_, readUintFixed_integer v (tagInteger &&& 0x20 != 0) 2 (r.span.off + r.pos + 2)⟩
  rw [AsnReader.next, failIf_bind (by simp only [Span.len]; omega), hsub, ok_bind,
    parseTlv_short hw rest _ (by decide) (by omega), ok_bind]
  simp only [Span.len, pure_eq_ok, advance, hsize]
  rw [Nat.mod_eq_of_lt (by omega)]

/-- What is written for two numbers fits in 72 bytes, and the decoder reads the two numbers from it: the SEQUENCE is all of
it, and has nothing after the second INTEGER. -/
theorem signature_round_trip (w : Nat) (hw : 16 ≤ w) (r s : BytesN 32) (cap : Nat) (hcap : 72 ≤ cap) :
    ∃ out, writeEcdsaSigValue r s cap = .ok out ∧ out.length ≤ 72 ∧ ∀ off,
      readEcdsaSigValue w ⟨off, out⟩ = .ok (r, s) ∧
      ∃ seqTlv rTlv sTlv sr sr', parseTlv w ⟨off, out⟩ = .ok seqTlv ∧ seqTlv.tag = tagSequence ∧
        seqTlv.headerLen + seqTlv.value.len = out.length ∧ (AsnReader.init seqTlv.value).next w = .ok (rTlv, sr) ∧
        sr.next w = .ok (sTlv, sr') ∧ readUintFixed rTlv 32 = .ok r ∧ readUintFixed sTlv 32 = .ok s ∧ sr'.done = true := by
  have hder := length_signatureDer r s
  have hbody := length_signatureBody r s
  have hr := length_integer r
  refine ⟨signatureDer r s, writeEcdsaSigValue_eq_ok.mpr ⟨hder.trans hcap, rfl⟩, hder, fun off => ?_⟩
  rw [signatureDer]
  generalize hR : tlv tagInteger (integerContent r) = R at *
  generalize hS : tlv tagInteger (integerContent s) = S at *
  have hseq := parseTlv_short hw [] off (show tagSequence &&& 0x1F ≠ 0x1F by decide) (show (R ++ S).length < 128 by omega)
  rw [List.append_nil] at hseq
  obtain ⟨rTlv, hnext, hread⟩ := next_integer hw (r := AsnReader.init ⟨off + 2, R ++ S⟩) r S (Nat.two_pow_pos 15)
    (by rw [hR]; rfl)
  obtain ⟨sTlv, hnext', hread'⟩ := next_integer hw (r := advance (AsnReader.init ⟨off + 2, R ++ S⟩) R.length) s []
    (by simp only [advance, AsnReader.init]; omega) (by simp [advance, AsnReader.init, hS])
  rw [hR] at hnext
  refine ⟨?_, _, rTlv, sTlv, _, _, hseq, rfl, ?_, hnext, hnext', hread, hread', ?_⟩
  · rw [readEcdsaSigValue, hseq, ok_bind, failIf_bind (fun h => h rfl)]
    simp only [hnext, hnext', hread, hread', ok_bind]
    rfl
  · rw [length_tlv, headerLen_short (by omega), Span.len]
  · rw [hS, AsnReader.done, decide_eq_true_eq]
    simp only [Span.len, advance, AsnReader.init, List.length_append]
    omega

/-- Two numbers with the top bit set. -/
theorem signature_round_trip_top : ∃ out,
    writeEcdsaSigValue ⟨List.replicate 32 0xff, rfl⟩ ⟨List.replicate 32 0x80, rfl⟩ 72 = .ok out ∧ out.length ≤ 72 ∧
      readEcdsaSigValue 32 ⟨0, out⟩ = .ok (⟨List.replicate 32 0xff, rfl⟩, ⟨List.replicate 32 0x80, rfl⟩) := by
  obtain ⟨out, hwrite, hlen, hread⟩ := signature_round_trip 32 (by decide) ⟨List.replicate 32 0xff, rfl⟩
    ⟨List.replicate 32 0x80, rfl⟩ 72 (by decide)
  exact ⟨out, hwrite, hlen, (hread 0).1⟩

end ND.Proof.Asn1
