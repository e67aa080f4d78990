import NanoDtls.Proof.Signature
import NanoDtls.Proof.X509.Signed
import NanoDtls.Spec.CertGrammar

/-!
# The language of the certificate parser

`nd_x509_parse` accepts a string exactly if the grammar derives it, and then
returns what the derivation has (`parse_iff_derives`). A reader that reads a
TLV splits what it has still to read in front of it (`next_split`), and reads
every TLV that is there (`next_reads`); each function of the parser is compared
with its production in both directions. The two loops read a whole list
(`Loop.iff`).
-/

namespace ND.Proof.X509

open ND.Impl ND.Impl.X509 ND.Impl.Asn1
open ND.Proof.Asn1 (At at_init advance)
open Spec.CertGrammar

/-! ## TLVs -/

theorem longLength_eq : ∀ b : Byte, b &&& 0x80 ≠ 0 → b = BitVec.ofNat 8 (128 + (b &&& 0x7F).toNat) := by decide +kernel

theorem shortLength_lt : ∀ b : Byte, b &&& 0x80 = 0 → b.toNat < 128 := by decide +kernel

theorem readAt_zero_eq_ok {l : Bytes} {b : Byte} (h : readAt l 0 = .ok b) : ∃ l', l = b :: l' := by
  cases l with
  | nil => cases h
  | cons c l => exact ⟨l, congrArg (· :: l) (Except.ok.inj h)⟩

theorem length_pos_of_length {len : Bytes} {n : Nat} (h : Length len n) : 1 ≤ len.length := by
  cases h <;> simp

theorem Encodes.two_le_length {tag : Byte} {value b : Bytes} (h : Encodes tag value b) : 2 ≤ b.length := by
  obtain ⟨-, hlength⟩ := h
  have hpos := length_pos_of_length hlength
  simp only [List.length_append, List.length_singleton]
  omega

/-- What `parseLen` reads are the octets of a length. -/
theorem length_of_parseLen {off : Nat} {tag len0 : Byte} {l : Bytes} {pos n : Nat}
    (h : parseLen 64 ⟨off, tag :: len0 :: l⟩ len0 = .ok (pos, n)) :
    ∃ octets rest, l = octets ++ rest ∧ pos = 2 + octets.length ∧ Length (len0 :: octets) n := by
  by_cases hbit : len0 &&& 0x80 = 0
  · have hlt := shortLength_lt len0 hbit
    rw [parseLen, if_pos hbit, pure_eq_ok, Except.ok.injEq, Prod.mk.injEq, Nat.mod_eq_of_lt (by omega)] at h
    obtain ⟨rfl, rfl⟩ := h
    refine ⟨[], l, rfl, rfl, ?_⟩
    have hshort := Length.short hlt
    rwa [BitVec.ofNat_toNat, BitVec.setWidth_eq] at hshort
  · obtain ⟨h0, hle, -, octets, hread, rfl, rfl⟩ := (parseLen_eq_ok hbit).mp h
    obtain ⟨hfit, htake⟩ := Record.readSlice_eq_ok.mp hread
    simp only [List.drop_succ_cons, List.drop_zero, List.length_cons] at htake hfit
    have hlen : octets.length = (len0 &&& 0x7F).toNat := by
      rw [← htake, List.length_take]
      omega
    have hval : beNat octets < 2 ^ 64 := (beNat_lt octets).trans_le
      (Nat.pow_le_pow_right (show 256 > 0 by decide) (show octets.length ≤ 8 by omega))
    refine ⟨octets, l.drop octets.length, ?_, by rw [hlen], ?_⟩
    · conv_lhs => rw [← List.take_append_drop octets.length l, hlen, htake]
      rw [hlen]
    · rw [Nat.mod_eq_of_lt hval, longLength_eq len0 hbit, ← hlen]
      refine .long (fun hnil => h0 ?_) (by omega)
      rw [← hlen, hnil, List.length_nil]

theorem encodes_of_parseTlv {s : Span} {t : Tlv} (h : parseTlv 64 s = .ok t) :
    ∃ b rest, s.bytes = b ++ rest ∧ Encodes t.tag t.value.bytes b ∧ b.length = t.headerLen + t.value.len := by
  obtain ⟨-, tag, htag, hlow, len0, hlen0, pos, n, hlen, -, -, value, hvalue, rfl⟩ := parseTlv_eq_ok.mp h
  obtain ⟨off, bytes⟩ := s
  obtain ⟨l, rfl⟩ := readAt_zero_eq_ok htag
  obtain ⟨l, rfl⟩ := readAt_zero_eq_ok (show readAt l 0 = .ok len0 from hlen0)
  obtain ⟨octets, rest, rfl, rfl, hlength⟩ := length_of_parseLen hlen
  obtain ⟨hfit, htake⟩ := Record.readSlice_eq_ok.mp hvalue
  simp only [Nat.add_comm 2, List.drop_succ_cons, List.drop_left, List.length_cons, List.length_append] at htake hfit
  have hn : value.length = n := by
    rw [← htake, List.length_take]
    omega
  refine ⟨[tag] ++ (len0 :: octets) ++ value, rest.drop n, ?_, .mk hlow (hn ▸ hlength), ?_⟩
  · rw [← htake]
    simp only [List.cons_append, List.nil_append, List.append_assoc, List.take_append_drop]
  · simp only [List.length_append, List.length_cons, List.length_nil, Span.len]
    omega

/-- The octets of a length, in front of anything. -/
theorem parseLen_of_length {len : Bytes} {n : Nat} (h : Length len n) (hn : n < 2 ^ 64) (off : Nat) (tag : Byte) (rest : Bytes) :
    ∃ len0 octets, len = len0 :: octets ∧ parseLen 64 ⟨off, [tag] ++ len ++ rest⟩ len0 = .ok (1 + len.length, n) := by
  cases h with
  | short hlt =>
    refine ⟨_, [], rfl, ?_⟩
    rw [parseLen, if_pos (Asn1.shortLength_bit n hlt), BitVec.toNat_ofNat, Nat.mod_eq_of_lt (show n < 2 ^ 8 by omega),
      Nat.mod_eq_of_lt hn]
    rfl
  | @long octets hne hle =>
    obtain ⟨hbit, hval⟩ := Asn1.longLength_bits octets.length (by omega)
    have hpos := List.length_pos_of_ne_nil hne
    refine ⟨_, octets, rfl, (parseLen_eq_ok hbit).mpr ?_⟩
    rw [hval]
    refine ⟨hpos.ne', hle, (Nat.mod_le _ _).trans ?_, octets, ?_, ?_, Nat.mod_eq_of_lt hn⟩
    · simp only [Span.len, List.length_append, List.length_cons, List.length_nil]
      omega
    · exact Record.readSlice_append [tag, BitVec.ofNat 8 (128 + octets.length)] _ rest (by simp) rfl rfl
    · rw [List.length_cons]
      omega

theorem parseTlv_of_encodes {tag : Byte} {value b : Bytes} (h : Encodes tag value b) (off : Nat) (rest : Bytes)
    (hsz : (b ++ rest).length < 2 ^ 64) : ∃ t, parseTlv 64 ⟨off, b ++ rest⟩ = .ok t ∧ t.tag = tag ∧ t.value.bytes = value ∧
      b.length = t.headerLen + t.value.len := by
  obtain ⟨hlow, hlength⟩ := h
  rename_i len
  have hbuf : [tag] ++ len ++ value ++ rest = [tag] ++ len ++ (value ++ rest) := List.append_assoc _ _ _
  rw [hbuf] at hsz ⊢
  simp only [List.length_append, List.length_singleton] at hsz
  obtain ⟨len0, octets, hlen, hparse⟩ := parseLen_of_length hlength (by omega) off tag (value ++ rest)
  have hmod : (1 + len.length + value.length) % 2 ^ 64 = 1 + len.length + value.length := Nat.mod_eq_of_lt (by omega)
  have hlen' := congrArg List.length hlen
  rw [List.length_cons] at hlen'
  refine ⟨⟨tag, tag &&& 0x20 != 0, 1 + len.length, ⟨off + (1 + len.length), value⟩⟩, parseTlv_eq_ok.mpr ?_, rfl, rfl, ?_⟩
  · refine ⟨?_, tag, rfl, hlow, len0, ?_, _, _, hparse, ?_, ?_, value, ?_, rfl⟩
    · simp only [Span.len, List.length_append, List.length_singleton]
      omega
    · rw [hlen]
      rfl
    · rw [hmod]
      exact Nat.le_add_right _ _
    · rw [hmod]
      simp only [Span.len, List.length_append, List.length_singleton]
      omega
    · exact Record.readSlice_append _ _ rest rfl (by simp only [List.length_append, List.length_singleton]) rfl
  · simp only [List.length_append, List.length_singleton, Span.len]

/-! ## Readers -/

theorem sub_rest {r : AsnReader} {rest : Bytes} (h : At r rest) :
    r.span.sub r.pos (r.span.len - r.pos) = .ok ⟨r.span.off + r.pos, rest⟩ := by
  have hsub := At.sub (show At r (rest ++ []) by rwa [List.append_nil])
  rwa [show r.span.len - r.pos = rest.length by have := h.length_eq; omega]

/-- A reader after a TLV of the length of `b`. -/
theorem next_pos {r : AsnReader} {t : Tlv} {b rest : Bytes} (h : At r (b ++ rest)) (hlen : b.length = t.headerLen + t.value.len) :
    ({ r with pos := (r.pos + (t.headerLen + t.value.len)) % 2 ^ 64 } : AsnReader) = advance r b.length := by
  have hlength := h.length_eq
  have hlt := h.len_lt
  rw [List.length_append] at hlength
  rw [advance, ← hlen, Nat.mod_eq_of_lt (by omega)]

/-- The reader of a value that is part of less than `2^64` bytes. -/
theorem at_value {t : Tlv} {b : Bytes} (hlen : b.length = t.headerLen + t.value.len) (hsz : b.length < 2 ^ 64) :
    At (.init t.value) t.value.bytes := by
  have hlt : t.value.bytes.length < 2 ^ 64 := by
    rw [Span.len] at hlen
    omega
  exact at_init t.value.off hlt

/-- A TLV that is parsed stands in front of the others. -/
theorem parseTlv_split {s : Span} {t : Tlv} (hsz : s.len < 2 ^ 64) (h : parseTlv 64 s = .ok t) :
    ∃ b rest, s.bytes = b ++ rest ∧ Encodes t.tag t.value.bytes b ∧ At (.init t.value) t.value.bytes := by
  obtain ⟨b, rest, hsplit, hb, hlen⟩ := encodes_of_parseTlv h
  rw [Span.len, hsplit, List.length_append] at hsz
  exact ⟨b, rest, hsplit, hb, at_value hlen (by omega)⟩

theorem parseTlv_reads {s : Span} {tag : Byte} {value b rest : Bytes} (hs : s.bytes = b ++ rest) (hsz : s.len < 2 ^ 64)
    (hb : Encodes tag value b) : ∃ t, parseTlv 64 s = .ok t ∧ t.tag = tag ∧ t.value.bytes = value ∧ At (.init t.value) value := by
  obtain ⟨off, bytes⟩ := s
  obtain rfl : bytes = b ++ rest := hs
  obtain ⟨t, ht, htag, hvalue, hlen⟩ := parseTlv_of_encodes hb off rest hsz
  rw [Span.len, List.length_append] at hsz
  exact ⟨t, ht, htag, hvalue, hvalue ▸ at_value hlen (by omega)⟩

/-- What a reader reads stands in front of the rest. -/
theorem next_split {r r' : AsnReader} {t : Tlv} {rest : Bytes} (h : At r rest) (hnext : r.next 64 = .ok (t, r')) :
    ∃ b rest', rest = b ++ rest' ∧ Encodes t.tag t.value.bytes b ∧ At r' rest' ∧ At (.init t.value) t.value.bytes ∧
      r.tlvView r.pos t = .ok ⟨r.span.off + r.pos, b⟩ := by
  have hlength := h.length_eq
  have hlt := h.len_lt
  rw [AsnReader.next, failIf_bind_eq_ok, sub_rest h, ok_bind, bind_eq_ok] at hnext
  obtain ⟨-, t, ht, hpair⟩ := hnext
  obtain ⟨rfl, rfl⟩ := Prod.mk.inj (Except.ok.inj hpair)
  obtain ⟨b, rest', hsplit, hb, hlen⟩ := encodes_of_parseTlv ht
  obtain rfl : rest = b ++ rest' := hsplit
  rw [List.length_append] at hlength
  refine ⟨b, rest', rfl, hb, ?_, at_value hlen (by omega), ?_⟩
  · rw [next_pos h hlen]
    exact h.advance
  · rw [AsnReader.tlvView, ← hlen]
    exact h.sub

/-- A reader reads a TLV that stands in front. -/
theorem next_reads {r : AsnReader} {tag : Byte} {value b rest : Bytes} (h : At r (b ++ rest)) (hb : Encodes tag value b) :
    ∃ t r', r.next 64 = .ok (t, r') ∧ t.tag = tag ∧ t.value.bytes = value ∧ At r' rest ∧ At (.init t.value) value ∧
      r.tlvView r.pos t = .ok ⟨r.span.off + r.pos, b⟩ := by
  have hlength := h.length_eq
  have hlt := h.len_lt
  obtain ⟨t, ht, htag, hvalue, hlen⟩ := parseTlv_of_encodes hb (r.span.off + r.pos) rest (by omega)
  have hpos := Encodes.two_le_length hb
  rw [List.length_append] at hlength
  refine ⟨t, advance r b.length, ?_, htag, hvalue, h.advance, hvalue ▸ at_value hlen (by omega), ?_⟩
  · rw [AsnReader.next, failIf_bind (by omega), sub_rest h, ok_bind, ht, ok_bind, pure_eq_ok, next_pos h hlen]
  · rw [AsnReader.tlvView, ← hlen]
    exact h.sub

/-! ## Signatures -/

theorem readAt_cons_zero (b : Byte) (l : Bytes) : readAt (b :: l) 0 = .ok b := rfl

/-- A number in 32 bytes, with zeros in front. -/
theorem padded_eq_iff {c : Bytes} (hc : c.length ≤ 32) {v : BytesN 32} :
    List.replicate (32 - c.length) 0 ++ c = v.1 ↔ beNat c = beNat v.1 := by
  constructor
  · intro h
    rw [← h, Asn1.beNat_zeros_append]
  · intro h
    refine beNat_inj ?_ (by rw [Asn1.beNat_zeros_append, h])
    rw [List.length_append, List.length_replicate, v.2]
    omega

theorem beNat_zero_cons (l : Bytes) : beNat (0 :: l) = beNat l := by
  rw [beNat_cons]
  simp

/-- 33 bytes of a number of 256 bits begin with a zero. -/
theorem eq_zero_of_beNat_cons_lt {b : Byte} {l : Bytes} (h : beNat (b :: l) < 256 ^ l.length) : b = 0 := by
  rw [beNat_cons] at h
  have hb : b.toNat = 0 := by
    by_contra hne
    have hmul : 256 ^ l.length * 1 ≤ 256 ^ l.length * b.toNat := Nat.mul_le_mul_left _ (Nat.pos_of_ne_zero hne)
    omega
  exact BitVec.eq_of_toNat_eq hb

theorem readUintFixed_iff {t : Tlv} {v : BytesN 32} {b : Byte} {l : Bytes} (h : t.value.bytes = b :: l) :
    readUintFixed t 32 = .ok v ↔ t.tag = 0x02 ∧ b &&& 0x80 = 0 ∧ l.length ≤ 32 ∧ beNat (b :: l) = beNat v.1 := by
  obtain ⟨tag, constructed, headerLen, off, c⟩ := t
  obtain rfl : c = b :: l := h
  unfold readUintFixed
  simp only [bind_eq_ok, failIf_eq_ok, exists_const, not_not, Record.bytesN_eq_ok]
  refine and_congr_right fun _ => ?_
  have hlen : Span.len ⟨off, b :: l⟩ = l.length + 1 := rfl
  have hflag : (decide (1 < l.length + 1) && b == 0) = true ↔ l ≠ [] ∧ b = 0 := by
    rw [Bool.and_eq_true, decide_eq_true_eq, beq_iff_eq, ← List.length_pos_iff, Nat.lt_add_left_iff_pos]
  simp only [hlen, readAt_cons_zero, Except.ok.injEq, exists_eq_left']
  generalize (decide (1 < l.length + 1) && b == 0) = flag at hflag ⊢
  cases flag with
  | true =>
    -- the zero in front is dropped
    obtain ⟨hl, rfl⟩ := hflag.mp rfl
    obtain ⟨c, l, rfl⟩ := List.exists_cons_of_ne_nil hl
    simp only [if_true, List.drop_succ_cons, List.drop_zero, readAt_cons_zero, Except.ok.injEq, exists_eq_left', beNat_zero_cons]
    constructor
    · rintro ⟨-, hle, -, heq⟩
      have hle : (c :: l).length ≤ 32 := Nat.le_of_not_lt fun hlt => hle (.inr hlt)
      exact ⟨rfl, hle, (padded_eq_iff hle).mp heq⟩
    · rintro ⟨-, hle, heq⟩
      refine ⟨Nat.succ_ne_zero _, ?_, fun hsign => Bool.noConfusion hsign.1, (padded_eq_iff hle).mpr heq⟩
      rintro (h0 | hlt)
      · exact Nat.succ_ne_zero _ h0
      · omega
  | false =>
    simp only [Bool.false_eq_true, if_false, readAt_cons_zero, Except.ok.injEq, exists_eq_left']
    constructor
    · rintro ⟨-, hle, hsign, heq⟩
      have hle : (b :: l).length ≤ 32 := Nat.le_of_not_lt fun hlt => hle (.inr hlt)
      exact ⟨not_not.mp fun hne => hsign ⟨trivial, hne⟩, Nat.le_of_succ_le hle, (padded_eq_iff hle).mp heq⟩
    · rintro ⟨hsign, hle, heq⟩
      have hle : (b :: l).length ≤ 32 := by
        by_contra hlt
        rw [List.length_cons] at hlt
        have hlt32 := beNat_lt v.1
        rw [v.2, ← heq, show 32 = l.length by omega] at hlt32
        have hl : l ≠ [] := List.length_pos_iff.mp (by omega)
        exact Bool.noConfusion (hflag.mpr ⟨hl, eq_zero_of_beNat_cons_lt hlt32⟩)
      refine ⟨Nat.succ_ne_zero _, ?_, fun h => h.2 hsign, (padded_eq_iff hle).mpr heq⟩
      rintro (h0 | hlt)
      · exact Nat.succ_ne_zero _ h0
      · omega

theorem uint_of_read {t : Tlv} {v : BytesN 32} {b : Bytes} (h : readUintFixed t 32 = .ok v)
    (hb : Encodes t.tag t.value.bytes b) : Uint b v := by
  cases hc : t.value.bytes with
  | nil =>
    obtain ⟨tag, constructed, headerLen, off, c⟩ := t
    obtain rfl : c = [] := hc
    simp [readUintFixed, bind_eq_ok, failIf_eq_ok, Span.len] at h
  | cons top rest =>
    obtain ⟨htag, hsign, hle, hval⟩ := (readUintFixed_iff hc).mp h
    rw [hc, htag] at hb
    exact .mk hsign hle hval hb

theorem readEcdsaSigValue_iff {sig : Span} (hsz : sig.len < 2 ^ 64) {r s : BytesN 32} :
    readEcdsaSigValue 64 sig = .ok (r, s) ↔ SigValue sig.bytes r s := by
  constructor
  · intro h
    simp only [readEcdsaSigValue, bind_eq_ok, failIf_eq_ok, exists_const, not_not, Prod.exists, pure_eq_ok, Except.ok.injEq,
      Prod.mk.injEq] at h
    obtain ⟨seq, hseq, htag, tr, sr, hr, ts, sr', hs, _, hreadr, _, hreads, rfl, rfl⟩ := h
    obtain ⟨b, after, hbytes, hb, hat⟩ := parseTlv_split hsz hseq
    obtain ⟨br, rest, hrest, hbr, hat, -, -⟩ := next_split hat hr
    obtain ⟨bs, more, rfl, hbs, -, -, -⟩ := next_split hat hs
    rw [htag, hrest] at hb
    rw [hbytes]
    exact .mk (uint_of_read hreadr hbr) (uint_of_read hreads hbs) hb
  · intro h
    generalize hbytes : sig.bytes = bytes at h
    obtain ⟨hr, hs, hb⟩ := h
    obtain ⟨hsignr, hler, hvalr, hbr⟩ := hr
    obtain ⟨hsigns, hles, hvals, hbs⟩ := hs
    obtain ⟨seq, hseq, htag, -, hat⟩ := parseTlv_reads hbytes hsz hb
    obtain ⟨tr, sr, hr, htagr, hvaluer, hat, -, -⟩ := next_reads hat hbr
    obtain ⟨ts, sr', hs, htags, hvalues, -, -, -⟩ := next_reads hat hbs
    simp only [readEcdsaSigValue, hseq, ok_bind, hr, hs]
    rw [failIf_bind (c := seq.tag ≠ tagSequence) (not_not.mpr htag), (readUintFixed_iff hvaluer).mpr ⟨htagr, hsignr, hler, hvalr⟩, ok_bind,
      (readUintFixed_iff hvalues).mpr ⟨htags, hsigns, hles, hvals⟩]
    rfl

/-! ## Fields -/

theorem readBitstringBytes_iff {t : Tlv} {s : Span} : readBitstringBytes t = .ok s ↔
    t.tag = 0x03 ∧ t.value.bytes = [0x00] ++ s.bytes ∧ s.off = t.value.off + 1 := by
  obtain ⟨tag, constructed, headerLen, off, c⟩ := t
  obtain ⟨off', s⟩ := s
  unfold readBitstringBytes
  simp only [bind_eq_ok, failIf_eq_ok, exists_const, not_not, Span.sub, pure_eq_ok, Except.ok.injEq, Span.mk.injEq]
  refine and_congr_right fun _ => ?_
  cases c with
  | nil => simp [Span.len]
  | cons b l =>
    have hread : readSlice (b :: l) 1 (Span.len ⟨off, b :: l⟩ - 1) = .ok l := by
      refine Record.readSlice_eq_ok.mpr ⟨?_, ?_⟩ <;> simp [Span.len, Nat.add_comm]
    simp only [readAt_cons_zero, hread, Except.ok.injEq, exists_eq_left', List.cons_append, List.nil_append, List.cons.injEq]
    constructor
    · rintro ⟨-, rfl, rfl, rfl⟩
      exact ⟨⟨rfl, rfl⟩, rfl⟩
    · rintro ⟨⟨rfl, rfl⟩, rfl⟩
      exact ⟨by simp [Span.len], rfl, rfl, rfl⟩

theorem allDigits_iff {digits : Bytes} : allDigits digits = true ↔ ∀ b ∈ digits, 0x30 ≤ b ∧ b ≤ 0x39 := by
  simp only [allDigits, List.all_eq_true, Bool.and_eq_true, decide_eq_true_eq]

theorem timeDigits_iff {t : Tlv} {n : Nat} {digits : Bytes} : timeDigits t n = .ok digits ↔
    t.value.bytes = digits ++ [0x5a] ∧ Spec.X509.Digits n digits := by
  obtain ⟨tag, constructed, headerLen, off, c⟩ := t
  constructor
  · intro h
    unfold timeDigits at h
    simp only [bind_eq_ok, failIf_eq_ok, exists_const, not_not, Bool.not_eq_false, pure_eq_ok, Except.ok.injEq] at h
    obtain ⟨hlen, z, hz, rfl, digits, hread, hall, rfl⟩ := h
    obtain ⟨-, htake⟩ := Record.readSlice_eq_ok.mp hread
    simp only [Span.len, List.drop_zero] at hlen htake
    obtain rfl | ⟨init, last, rfl⟩ := List.eq_nil_or_concat' c
    · cases hlen
    · rw [List.length_append, List.length_singleton, Nat.add_right_cancel_iff] at hlen
      subst hlen
      rw [List.take_left] at htake
      subst htake
      have hlast : last = 0x5a := by simpa [readAt] using hz
      rw [hlast]
      exact ⟨rfl, rfl, allDigits_iff.mp hall⟩
  · rintro ⟨hc, hlen, hall⟩
    obtain rfl : c = digits ++ [0x5a] := hc
    have htime := timeDigits_eq 0 off hall
    rw [hlen] at htime
    exact htime

/-- The tag of a time. -/
def timeTag : Spec.X509.Time → Byte
  | .utc .. => tagUtcTime
  | .generalized .. => tagGeneralizedTime

/-- The digits of a time, and the `Z` after them. -/
def timeText : Spec.X509.Time → Bytes
  | .utc digits _ => digits ++ [0x5a]
  | .generalized digits _ => digits ++ [0x5a]

theorem time_iff {b : Bytes} {τ : Spec.X509.Time} : Time b τ ↔ Encodes (timeTag τ) (timeText τ) b := by
  constructor
  · rintro (⟨_, h⟩ | ⟨_, h⟩) <;> exact h
  · cases τ with
    | utc digits hd => exact .utc hd
    | generalized digits hd => exact .generalized hd

theorem length_timeText (τ : Spec.X509.Time) : (timeText τ).length ≤ 15 := by
  obtain ⟨digits, hd⟩ | ⟨digits, hd⟩ := τ <;> simp [timeText, hd.1]

theorem tlv_inj {tag tag' : Byte} {value value' : Bytes} (h : Spec.X509.tlv tag value = Spec.X509.tlv tag' value')
    (htag : tag &&& 0x1f ≠ 0x1f) (htag' : tag' &&& 0x1f ≠ 0x1f) (hsz : (Spec.X509.tlv tag value).length < 2 ^ 64) :
    tag = tag' ∧ value = value' := by
  have hparse := Asn1.parseTlv_tlv tag value [] 0 htag (by rwa [List.append_nil])
  have hparse' := Asn1.parseTlv_tlv tag' value' [] 0 htag' (by rwa [List.append_nil, ← h])
  rw [h] at hparse
  have heq := Except.ok.inj (hparse.symm.trans hparse')
  exact ⟨congrArg Tlv.tag heq, congrArg (fun t : Tlv => t.value.bytes) heq⟩

theorem parseTime_text (τ : Spec.X509.Time) (off : Nat) : parseTime (Asn1.tlvAt (timeTag τ) off (timeText τ)) = .ok τ.canonical := by
  obtain ⟨tag, value, hencode, hlow, hparse⟩ := parseTime_encode τ
  have hencode' : τ.encode = Spec.X509.tlv (timeTag τ) (timeText τ) := by cases τ <;> rfl
  have hlow' : timeTag τ &&& 0x1f ≠ 0x1f := by
    cases τ with
    | utc => exact (by decide : tagUtcTime &&& 0x1f ≠ 0x1f)
    | generalized => exact (by decide : tagGeneralizedTime &&& 0x1f ≠ 0x1f)
  have hlen := length_timeText τ
  obtain ⟨htag, hvalue⟩ := tlv_inj (hencode'.symm.trans hencode) hlow' hlow (by
    rw [Asn1.length_tlv, Asn1.headerLen_short (by omega)]
    omega)
  rw [htag, hvalue]
  exact hparse off

theorem parseTime_iff {t : Tlv} {n : Nat} : parseTime t = .ok n ↔
    ∃ τ, t.tag = timeTag τ ∧ t.value.bytes = timeText τ ∧ τ.canonical = n := by
  obtain ⟨tag, constructed, headerLen, off, c⟩ := t
  have hparse (τ : Spec.X509.Time) (htag : tag = timeTag τ) (hc : c = timeText τ) :
      parseTime ⟨tag, constructed, headerLen, off, c⟩ = .ok τ.canonical := by
    subst htag hc
    exact parseTime_text τ off
  constructor
  · intro h
    obtain ⟨τ, htag, hc⟩ : ∃ τ, tag = timeTag τ ∧ c = timeText τ := by
      unfold parseTime at h
      by_cases hutc : tag = tagUtcTime
      · rw [if_pos hutc, bind_eq_ok] at h
        obtain ⟨digits, hdigits, -⟩ := h
        obtain ⟨hc, hd⟩ := timeDigits_iff.mp hdigits
        exact ⟨.utc digits hd, hutc, hc⟩
      · rw [if_neg hutc] at h
        by_cases hgen : tag = tagGeneralizedTime
        · rw [if_pos hgen, bind_eq_ok] at h
          obtain ⟨digits, hdigits, -⟩ := h
          obtain ⟨hc, hd⟩ := timeDigits_iff.mp hdigits
          exact ⟨.generalized digits hd, hgen, hc⟩
        · rw [if_neg hgen] at h
          cases h
    exact ⟨τ, htag, hc, Except.ok.inj ((hparse τ htag hc).symm.trans h)⟩
  · rintro ⟨τ, htag, hc, rfl⟩
    exact hparse τ htag hc

theorem parseValidity_iff {t : Tlv} (h : At (.init t.value) t.value.bytes) {y : Nat × Nat} : parseValidity 64 t = .ok y ↔
    ∃ nb na, Validity t.value.bytes nb na ∧ y = (nb.canonical, na.canonical) := by
  constructor
  · intro hparse
    simp only [parseValidity, bind_eq_ok, Prod.exists, pure_eq_ok, Except.ok.injEq] at hparse
    obtain ⟨tnb, vr, hnb, tna, vr', hna, _, hparsenb, _, hparsena, rfl⟩ := hparse
    obtain ⟨nb, htag, htext, rfl⟩ := parseTime_iff.mp hparsenb
    obtain ⟨na, htag', htext', rfl⟩ := parseTime_iff.mp hparsena
    obtain ⟨bnb, rest, hrest, hbnb, hat, -, -⟩ := next_split h hnb
    obtain ⟨bna, more, rfl, hbna, -, -, -⟩ := next_split hat hna
    rw [htag, htext] at hbnb
    rw [htag', htext'] at hbna
    rw [hrest]
    exact ⟨nb, na, .mk (time_iff.mpr hbnb) (time_iff.mpr hbna), rfl⟩
  · rintro ⟨nb, na, hv, rfl⟩
    generalize t.value.bytes = value at h hv
    obtain ⟨hnb, hna⟩ := hv
    obtain ⟨tnb, vr, hreadnb, htag, htext, hat, -, -⟩ := next_reads h (time_iff.mp hnb)
    obtain ⟨tna, vr', hreadna, htag', htext', -, -, -⟩ := next_reads hat (time_iff.mp hna)
    simp only [parseValidity, hreadnb, ok_bind, hreadna, parseTime_iff.mpr ⟨nb, htag, htext, rfl⟩,
      parseTime_iff.mpr ⟨na, htag', htext', rfl⟩]
    rfl

theorem oidEq_iff {t : Tlv} {oid : Bytes} : oidEq t oid = true ↔ t.tag = 0x06 ∧ t.value.bytes = oid := by
  rw [oidEq, Bool.and_eq_true, beq_iff_eq, beq_iff_eq]
  rfl

theorem checkKeyAlg_iff {t : Tlv} (h : At (.init t.value) t.value.bytes) :
    checkKeyAlg 64 t = .ok () ↔ KeyAlgorithm t.value.bytes := by
  constructor
  · intro hcheck
    simp only [checkKeyAlg, bind_eq_ok, failIf_eq_ok, exists_const, Bool.not_eq_false, Prod.exists, oidEq_iff] at hcheck
    obtain ⟨talg, ar, halg, ⟨htag, hvalue⟩, tcurve, ar', hcurve, htag', hvalue'⟩ := hcheck
    obtain ⟨balg, rest, hrest, hbalg, hat, -, -⟩ := next_split h halg
    obtain ⟨bcurve, more, rfl, hbcurve, -, -, -⟩ := next_split hat hcurve
    rw [htag, hvalue] at hbalg
    rw [htag', hvalue'] at hbcurve
    rw [hrest]
    exact .mk hbalg hbcurve
  · intro halg
    generalize t.value.bytes = value at h halg
    obtain ⟨hbalg, hbcurve⟩ := halg
    obtain ⟨talg, ar, hreadalg, htag, hvalue, hat, -, -⟩ := next_reads h hbalg
    obtain ⟨tcurve, ar', hreadcurve, htag', hvalue', -, -, -⟩ := next_reads hat hbcurve
    have hoid : oidEq talg oidEcPublicKey = true := oidEq_iff.mpr ⟨htag, hvalue⟩
    have hoid' : oidEq tcurve oidPrime256v1 = true := oidEq_iff.mpr ⟨htag', hvalue'⟩
    simp only [checkKeyAlg, hreadalg, ok_bind, hreadcurve, hoid, hoid', failIf, Bool.true_eq_false, if_false]

theorem parseKeyBytes_iff {key : Span} {qx qy : BytesN 32} : parseKeyBytes key = .ok (qx, qy) ↔
    key.bytes = [0x04] ++ qx.1 ++ qy.1 ∧ Spec.Ecdsa.OnCurve (beNat qx.1) (beNat qy.1) := by
  obtain ⟨off, c⟩ := key
  constructor
  · intro h
    unfold parseKeyBytes at h
    simp only [bind_eq_ok, failIf_eq_ok, exists_const, not_not, Record.bytesN_eq_ok] at h
    obtain ⟨hlen, form, hform, rfl, bx, hbx, qx', rfl, by', hby, qy', rfl, hmatch⟩ := h
    have hvalid : P256.p256PointIsValid qx' qy' = .ok () ∧ (qx', qy') = (qx, qy) := by
      split at hmatch
      · exact ⟨by assumption, Except.ok.inj hmatch⟩
      · cases hmatch
      · cases hmatch
    obtain ⟨rfl, rfl⟩ := Prod.mk.inj hvalid.2
    obtain ⟨l, rfl⟩ := readAt_zero_eq_ok hform
    obtain ⟨-, htakex⟩ := Record.readSlice_eq_ok.mp hbx
    obtain ⟨-, htakey⟩ := Record.readSlice_eq_ok.mp hby
    simp only [Span.len, List.length_cons] at hlen
    simp only [List.drop_succ_cons, List.drop_zero] at htakex htakey
    rw [List.take_of_length_le (by rw [List.length_drop]; omega)] at htakey
    refine ⟨?_, (P256.pointIsValid_decides _ _).ok_iff.mp hvalid.1⟩
    rw [← htakex, ← htakey, List.append_assoc, List.take_append_drop]
    rfl
  · rintro ⟨hc, hcurve⟩
    obtain rfl : c = [0x04] ++ qx.1 ++ qy.1 := hc
    exact parseKeyBytes_eq hcurve off

theorem parseSpki_iff {t : Tlv} (h : At (.init t.value) t.value.bytes) {qx qy : BytesN 32} :
    parseSpki 64 t = .ok (qx, qy) ↔ PublicKey t.value.bytes qx qy := by
  constructor
  · intro hparse
    simp only [parseSpki, bind_eq_ok, Prod.exists] at hparse
    obtain ⟨talg, sr, halg, ⟨⟩, hcheck, tkey, sr', hkey, key, hbits, hkeyBytes⟩ := hparse
    obtain ⟨balg, rest, hrest, hbalg, hat, hatalg, -⟩ := next_split h halg
    obtain ⟨bkey, more, rfl, hbkey, -, -, -⟩ := next_split hat hkey
    obtain ⟨htag, hvalue, -⟩ := readBitstringBytes_iff.mp hbits
    obtain ⟨hbytes, hcurve⟩ := parseKeyBytes_iff.mp hkeyBytes
    rw [htag, hvalue, hbytes] at hbkey
    rw [hrest]
    exact .mk ((checkKeyAlg_iff hatalg).mp hcheck) hbalg hbkey hcurve
  · intro hkey
    generalize t.value.bytes = value at h hkey
    obtain ⟨halg, hbalg, hbkey, hcurve⟩ := hkey
    obtain ⟨talg, sr, hreadalg, -, hvalue, hat, hatalg, -⟩ := next_reads h hbalg
    obtain ⟨tkey, sr', hreadkey, htag', hvalue', -, -, -⟩ := next_reads hat hbkey
    subst hvalue
    have hbits := readBitstringBytes_iff (t := tkey) (s := ⟨tkey.value.off + 1, [0x04] ++ qx.1 ++ qy.1⟩) |>.mpr
      ⟨htag', hvalue'.trans (by simp), rfl⟩
    simp only [parseSpki, hreadalg, ok_bind, (checkKeyAlg_iff hatalg).mpr halg, hreadkey, hbits]
    exact parseKeyBytes_eq hcurve _

/-! ## Extensions -/

/-- The end of the block for a basicConstraints: its `cA`. -/
def caOf (octets : Span) : Result Bool := do
  let bcSeq ← parseTlv 64 octets
  if bcSeq.tag = tagSequence ∧ 0 < bcSeq.value.len then do
    let (caBool, _) ← (AsnReader.init bcSeq.value).next 64
    if caBool.tag = tagBoolean ∧ caBool.value.len = 1 then do
      let v ← readAt caBool.value.bytes 0
      return v != 0
    else return false
  else return false

theorem basicConstraints_caOf (xr : AsnReader) : basicConstraints 64 xr = (do
    let (field, xr) ← xr.next 64
    let field ← (if field.tag = tagBoolean then Prod.fst <$> xr.next 64 else .ok field)
    failIf (field.tag ≠ tagOctetString) .badArg
    caOf field.value) := rfl

theorem len_pos_iff {s : Span} : 0 < s.len ↔ s.bytes ≠ [] := List.length_pos_iff

theorem caOf_iff {octets : Span} (hsz : octets.len < 2 ^ 64) {ca : Bool} : caOf octets = .ok ca ↔ CaFlag octets.bytes ca := by
  constructor
  · intro h
    rw [caOf, bind_eq_ok] at h
    obtain ⟨seq, hseq, h⟩ := h
    obtain ⟨b, after, hbytes, hb, hat⟩ := parseTlv_split hsz hseq
    rw [hbytes]
    by_cases hfields : seq.tag = tagSequence ∧ 0 < seq.value.len
    · rw [if_pos hfields, bind_eq_ok] at h
      obtain ⟨⟨field, r⟩, hfield, h⟩ := h
      simp only at h
      obtain ⟨bfield, more, hmore, hbfield, -, -, -⟩ := next_split hat hfield
      rw [hmore, hfields.1] at hb
      by_cases hbool : field.tag = tagBoolean ∧ field.value.len = 1
      · rw [if_pos hbool, bind_eq_ok] at h
        obtain ⟨v, hv, h⟩ := h
        obtain ⟨l, hl⟩ := readAt_zero_eq_ok hv
        obtain rfl : l = [] := by
          have hlen := hbool.2
          rw [Span.len, hl] at hlen
          simpa using hlen
        rw [hl, hbool.1] at hbfield
        rw [← Except.ok.inj h]
        exact .boolean hbfield hb
      · rw [if_neg hbool] at h
        rw [← Except.ok.inj h]
        exact .otherField hbfield hbool hb
    · rw [if_neg hfields] at h
      rw [← Except.ok.inj h]
      exact .noField (fun hne => hfields ⟨hne.1, len_pos_iff.mpr hne.2⟩) hb
  · intro h
    generalize hbytes : octets.bytes = bytes at h
    cases h with
    | boolean hca hb =>
      obtain ⟨seq, hseq, htag, hvalue, hat⟩ := parseTlv_reads hbytes hsz hb
      obtain ⟨field, r, hfield, htag', hvalue', -, -, -⟩ := next_reads hat hca
      have hpos := Encodes.two_le_length hca
      have hfields : seq.tag = tagSequence ∧ 0 < seq.value.len := by
        refine ⟨htag, ?_⟩
        rw [Span.len, hvalue, List.length_append]
        omega
      have hbool : field.tag = tagBoolean ∧ field.value.len = 1 := ⟨htag', by rw [Span.len, hvalue']; rfl⟩
      rw [caOf, hseq, ok_bind, if_pos hfields, hfield, ok_bind]
      simp only
      rw [if_pos hbool, hvalue', readAt_cons_zero]
      rfl
    | otherField hother hnot hb =>
      obtain ⟨seq, hseq, htag, hvalue, hat⟩ := parseTlv_reads hbytes hsz hb
      obtain ⟨field, r, hfield, htag', hvalue', -, -, -⟩ := next_reads hat hother
      have hpos := Encodes.two_le_length hother
      have hfields : seq.tag = tagSequence ∧ 0 < seq.value.len := by
        refine ⟨htag, ?_⟩
        rw [Span.len, hvalue, List.length_append]
        omega
      subst htag' hvalue'
      have hbool : ¬ (field.tag = tagBoolean ∧ field.value.len = 1) := hnot
      rw [caOf, hseq, ok_bind, if_pos hfields, hfield, ok_bind]
      simp only
      rw [if_neg hbool]
      rfl
    | noField hnot hb =>
      obtain ⟨seq, hseq, htag, hvalue, -⟩ := parseTlv_reads hbytes hsz hb
      subst htag hvalue
      have hfields : ¬ (seq.tag = tagSequence ∧ 0 < seq.value.len) := fun h => hnot ⟨h.1, len_pos_iff.mp h.2⟩
      rw [caOf, hseq, ok_bind, if_neg hfields]
      rfl

theorem basicConstraints_iff {xr : AsnReader} {rest : Bytes} (h : At xr rest) {ca : Bool} :
    basicConstraints 64 xr = .ok ca ↔ BasicConstraints rest ca := by
  rw [basicConstraints_caOf]
  constructor
  · intro hparse
    rw [bind_eq_ok] at hparse
    obtain ⟨⟨field, xr'⟩, hfield, hparse⟩ := hparse
    obtain ⟨bfield, rest', rfl, hbfield, hat, hatfield, -⟩ := next_split h hfield
    by_cases hcritical : field.tag = tagBoolean
    · simp only [hcritical, if_true, bind_eq_ok, failIf_eq_ok, exists_const, not_not, map_eq_ok, Prod.exists] at hparse
      obtain ⟨_, ⟨octets, xr'', hoctets, rfl⟩, htag, hca⟩ := hparse
      obtain ⟨boctets, more, rfl, hboctets, -, hatoctets, -⟩ := next_split hat hoctets
      rw [hcritical] at hbfield
      rw [htag] at hboctets
      exact .critical hbfield ((caOf_iff hatoctets.len_lt).mp hca) hboctets
    · simp only [hcritical, if_false, ok_bind, failIf_bind_eq_ok, not_not] at hparse
      rw [hparse.1] at hbfield
      exact .plain ((caOf_iff hatfield.len_lt).mp hparse.2) hbfield
  · intro hbc
    cases hbc with
    | plain hca hb =>
      obtain ⟨field, xr', hfield, htag, rfl, -, hat, -⟩ := next_reads h hb
      have hne : field.tag ≠ tagBoolean := by
        rw [htag]
        decide
      simp only [hfield, ok_bind, hne, if_false]
      rw [failIf_bind (c := field.tag ≠ tagOctetString) (not_not.mpr htag)]
      exact (caOf_iff hat.len_lt).mpr hca
    | critical hflag hca hb =>
      obtain ⟨flag, xr', hreadflag, htag, -, hat, -, -⟩ := next_reads h hflag
      obtain ⟨field, xr'', hfield, htag', rfl, -, hat, -⟩ := next_reads hat hb
      have heq : flag.tag = tagBoolean := htag
      simp only [hreadflag, ok_bind, heq, if_true, hfield, map_ok]
      rw [failIf_bind (c := field.tag ≠ tagOctetString) (not_not.mpr htag')]
      exact (caOf_iff hat.len_lt).mpr hca

/-- One turn of the loop over the extensions. -/
theorem extension_split {ext extOid : Tlv} {xr : AsnReader} {b : Bytes} {ca : Bool} (hb : Encodes ext.tag ext.value.bytes b)
    (hat : At (.init ext.value) ext.value.bytes) (htag : ext.tag = 0x30)
    (hnext : (AsnReader.init ext.value).next 64 = .ok (extOid, xr))
    (hca : (if oidEq extOid oidBasicConstraints then basicConstraints 64 xr else .ok false) = .ok ca) : Extension b ca := by
  obtain ⟨bid, rest, hrest, hbid, hxr, -, -⟩ := next_split hat hnext
  rw [htag, hrest] at hb
  by_cases hoid : oidEq extOid oidBasicConstraints = true
  · rw [if_pos hoid] at hca
    obtain ⟨hidTag, hid⟩ := oidEq_iff.mp hoid
    rw [hidTag, hid] at hbid
    exact .basicConstraints hbid ((basicConstraints_iff hxr).mp hca) hb
  · rw [if_neg hoid] at hca
    rw [← Except.ok.inj hca]
    exact .other hbid (fun h => hoid (oidEq_iff.mpr h)) hb

theorem extension_reads {er : AsnReader} {b rest : Bytes} {ca : Bool} (h : At er (b ++ rest)) (he : Extension b ca) :
    ∃ ext er' extOid xr, er.next 64 = .ok (ext, er') ∧ At er' rest ∧ ext.tag = 0x30 ∧
      (AsnReader.init ext.value).next 64 = .ok (extOid, xr) ∧
      (if oidEq extOid oidBasicConstraints then basicConstraints 64 xr else .ok false) = .ok ca := by
  cases he with
  | basicConstraints hbid hbc hb =>
    obtain ⟨ext, er', hnext, htag, -, hat', hat, -⟩ := next_reads h hb
    obtain ⟨extOid, xr, hoid, hidTag, hid, hxr, -, -⟩ := next_reads hat hbid
    refine ⟨ext, er', extOid, xr, hnext, hat', htag, hoid, ?_⟩
    have hisBc : oidEq extOid oidBasicConstraints = true := oidEq_iff.mpr ⟨hidTag, hid⟩
    rw [if_pos hisBc]
    exact (basicConstraints_iff hxr).mpr hbc
  | other hbid hnot hb =>
    obtain ⟨ext, er', hnext, htag, -, hat', hat, -⟩ := next_reads h hb
    obtain ⟨extOid, xr, hoid, rfl, rfl, -, -, -⟩ := next_reads hat hbid
    refine ⟨ext, er', extOid, xr, hnext, hat', htag, hoid, ?_⟩
    have hnotBc : ¬ oidEq extOid oidBasicConstraints = true := fun h => hnot (oidEq_iff.mp h)
    rw [if_neg hnotBc]

/-- A loop over the fields of a reader, each of which may set the flag. -/
structure Loop (P : Bytes → Bool → Prop) (loop : Nat → Bool → AsnReader → Result Bool) : Prop where
  nonempty {b : Bytes} {flag : Bool} : P b flag → 1 ≤ b.length
  done (fuel : Nat) (isCa : Bool) {r : AsnReader} : r.done = true → loop (fuel + 1) isCa r = .ok isCa
  split {fuel : Nat} {isCa ca : Bool} {r : AsnReader} {rest : Bytes} : At r rest → ¬ r.done = true →
    loop (fuel + 1) isCa r = .ok ca →
    ∃ b rest' flag r', rest = b ++ rest' ∧ P b flag ∧ At r' rest' ∧ loop fuel (isCa || flag) r' = .ok ca
  reads {b rest : Bytes} {flag : Bool} {r : AsnReader} : At r (b ++ rest) → ¬ r.done = true → P b flag →
    ∃ r', At r' rest ∧ ∀ fuel isCa, loop (fuel + 1) isCa r = loop fuel (isCa || flag) r'

/-- Such a loop reads a list of fields to its end. -/
theorem Loop.iff {P : Bytes → Bool → Prop} {loop : Nat → Bool → AsnReader → Result Bool} (hloop : Loop P loop) :
    ∀ (fuel : Nat) {isCa ca : Bool} {r : AsnReader} {rest : Bytes}, At r rest → rest.length < fuel →
      (loop fuel isCa r = .ok ca ↔ ∃ flags, Many P rest flags ∧ ca = (isCa || flags))
  | fuel + 1, isCa, ca, r, rest, h, hfuel => by
    constructor
    · intro hok
      by_cases hdone : r.done = true
      · obtain rfl := h.done.mp hdone
        rw [hloop.done fuel isCa hdone] at hok
        exact ⟨false, .nil, by rw [Bool.or_false, Except.ok.inj hok]⟩
      · obtain ⟨b, rest', flag, r', rfl, hb, hat, hok⟩ := hloop.split h hdone hok
        have hpos := hloop.nonempty hb
        rw [List.length_append] at hfuel
        obtain ⟨flags, hmany, rfl⟩ := (hloop.iff fuel hat (by omega)).mp hok
        exact ⟨flag || flags, .cons hb hmany, Bool.or_assoc ..⟩
    · rintro ⟨flags, hmany, rfl⟩
      cases hmany with
      | nil => rw [hloop.done fuel isCa (h.done.mpr rfl), Bool.or_false]
      | @cons b rest' flag flags hb hmany =>
        have hpos := hloop.nonempty hb
        have hdone : ¬ r.done = true := by
          intro hdone
          have hnil := congrArg List.length (h.done.mp hdone)
          rw [List.length_append, List.length_nil] at hnil
          omega
        rw [List.length_append] at hfuel
        obtain ⟨r', hat, hturn⟩ := hloop.reads h hdone hb
        rw [hturn]
        exact (hloop.iff fuel hat (by omega)).mpr ⟨flags, hmany, (Bool.or_assoc ..).symm⟩

theorem loop_extensions : Loop Extension (extensionLoop 64) where
  nonempty h := by
    cases h with
    | basicConstraints _ _ hb => exact Nat.le_of_succ_le (Encodes.two_le_length hb)
    | other _ _ hb => exact Nat.le_of_succ_le (Encodes.two_le_length hb)
  done fuel isCa _ hdone := by rw [extensionLoop, if_pos hdone]
  split h hdone hok := by
    rw [extensionLoop, if_neg hdone] at hok
    simp only [bind_eq_ok, failIf_eq_ok, exists_const, not_not, Prod.exists] at hok
    obtain ⟨ext, er', hnext, htag, extOid, xr, hoid, flag, hflag, hok⟩ := hok
    obtain ⟨b, rest', rfl, hb, hat', hat, -⟩ := next_split h hnext
    exact ⟨b, rest', flag, er', rfl, extension_split hb hat htag hoid hflag, hat', hok⟩
  reads h hdone he := by
    obtain ⟨ext, er', extOid, xr, hnext, hat', htag, hoid, hflag⟩ := extension_reads h he
    refine ⟨er', hat', fun fuel isCa => ?_⟩
    rw [extensionLoop, if_neg hdone, hnext, ok_bind]
    simp only
    rw [failIf_bind (c := ext.tag ≠ tagSequence) (not_not.mpr htag), hoid, ok_bind]
    simp only [hflag, ok_bind]

theorem scanExtensions_iff {t : Tlv} (h : At (.init t.value) t.value.bytes) {isCa ca : Bool} :
    scanExtensions 64 t isCa = .ok ca ↔
      ∃ exts bexts after flag, t.value.bytes = bexts ++ after ∧ Encodes 0x30 exts bexts ∧ Many Extension exts flag ∧
        ca = (isCa || flag) := by
  constructor
  · intro hscan
    simp only [scanExtensions, bind_eq_ok, failIf_eq_ok, exists_const, not_not] at hscan
    obtain ⟨seq, hseq, htag, hloop⟩ := hscan
    obtain ⟨bexts, after, hbytes, hbexts, hat⟩ := parseTlv_split h.len_lt hseq
    obtain ⟨flag, hmany, rfl⟩ := (loop_extensions.iff _ hat (Nat.lt_succ_self _)).mp hloop
    rw [htag] at hbexts
    exact ⟨_, bexts, after, flag, hbytes, hbexts, hmany, rfl⟩
  · rintro ⟨exts, bexts, after, flag, hbytes, hbexts, hmany, rfl⟩
    obtain ⟨seq, hseq, htag, rfl, hat⟩ := parseTlv_reads hbytes h.len_lt hbexts
    rw [scanExtensions, hseq, ok_bind, failIf_bind (c := seq.tag ≠ tagSequence) (not_not.mpr htag)]
    exact (loop_extensions.iff _ hat (Nat.lt_succ_self _)).mpr ⟨flag, hmany, rfl⟩

theorem loop_optionalFields : Loop OptionalField (optionalLoop 64) where
  nonempty h := by
    cases h with
    | extensions _ _ hb => exact Nat.le_of_succ_le (Encodes.two_le_length hb)
    | skipped _ hb => exact Nat.le_of_succ_le (Encodes.two_le_length hb)
  done fuel isCa _ hdone := by rw [optionalLoop, if_pos hdone]
  split h hdone hok := by
    rw [optionalLoop, if_neg hdone] at hok
    simp only [bind_eq_ok, Prod.exists] at hok
    obtain ⟨opt, r', hnext, flag, hflag, hok⟩ := hok
    obtain ⟨b, rest', rfl, hb, hat', hat, -⟩ := next_split h hnext
    by_cases htag : opt.tag = tagCtx 3
    · rw [if_pos htag] at hflag
      obtain ⟨exts, bexts, after, ca, hbytes, hbexts, hmany, rfl⟩ := (scanExtensions_iff hat).mp hflag
      rw [htag, hbytes] at hb
      exact ⟨b, rest', ca, r', rfl, .extensions hmany hbexts hb, hat', hok⟩
    · rw [if_neg htag] at hflag
      obtain rfl := Except.ok.inj hflag
      exact ⟨b, rest', false, r', rfl, .skipped htag hb, hat', by rwa [Bool.or_false]⟩
  reads h hdone hfield := by
    cases hfield with
    | extensions hmany hbexts hb =>
      obtain ⟨opt, r', hnext, htag, hvalue, hat', hat, -⟩ := next_reads h hb
      refine ⟨r', hat', fun fuel isCa => ?_⟩
      have hscan : scanExtensions 64 opt isCa = .ok (isCa || _) :=
        (scanExtensions_iff (hvalue ▸ hat)).mpr ⟨_, _, _, _, hvalue, hbexts, hmany, rfl⟩
      have hctx : opt.tag = tagCtx 3 := htag
      rw [optionalLoop, if_neg hdone, hnext, ok_bind]
      simp only [hctx, if_true, hscan, ok_bind]
    | skipped hne hb =>
      obtain ⟨opt, r', hnext, rfl, -, hat', -, -⟩ := next_reads h hb
      refine ⟨r', hat', fun fuel isCa => ?_⟩
      have hctx : ¬ opt.tag = tagCtx 3 := hne
      rw [optionalLoop, if_neg hdone, hnext, ok_bind]
      simp only [hctx, if_false, ok_bind, Bool.or_false]

/-! ## Certificates -/

theorem skipSerial_split {r r' : AsnReader} {rest : Bytes} (h : At r rest) (hskip : skipSerial 64 r = .ok r') :
    ∃ bversion serial bserial rest', rest = bversion ++ (bserial ++ rest') ∧ Version bversion ∧ Encodes 0x02 serial bserial ∧
      At r' rest' := by
  rw [skipSerial, bind_eq_ok] at hskip
  obtain ⟨⟨field, r₁⟩, hfield, hskip⟩ := hskip
  obtain ⟨b, rest', rfl, hb, hat, -, -⟩ := next_split h hfield
  by_cases hversion : field.tag = tagCtx 0
  · simp only [hversion, if_true, bind_eq_ok, failIf_eq_ok, exists_const, not_not, Prod.exists, pure_eq_ok,
      Except.ok.injEq] at hskip
    obtain ⟨serial, _, hserial, htag, rfl⟩ := hskip
    obtain ⟨bserial, rest'', rfl, hbserial, hat, -, -⟩ := next_split hat hserial
    rw [hversion] at hb
    rw [htag] at hbserial
    exact ⟨b, _, bserial, rest'', rfl, .present hb, hbserial, hat⟩
  · simp only [hversion, if_false, ok_bind, bind_eq_ok, failIf_eq_ok, exists_const, not_not, pure_eq_ok, Except.ok.injEq] at hskip
    obtain ⟨htag, rfl⟩ := hskip
    rw [htag] at hb
    exact ⟨[], _, b, rest', rfl, .absent, hb, hat⟩

theorem skipSerial_reads {r : AsnReader} {bversion serial bserial rest : Bytes} (h : At r (bversion ++ (bserial ++ rest)))
    (hversion : Version bversion) (hserial : Encodes 0x02 serial bserial) : ∃ r', skipSerial 64 r = .ok r' ∧ At r' rest := by
  cases hversion with
  | absent =>
    have h : At r (bserial ++ rest) := h
    obtain ⟨field, r', hnext, htag, -, hat, -, -⟩ := next_reads h hserial
    have hne : ¬ field.tag = tagCtx 0 := by
      rw [htag]
      decide
    refine ⟨r', ?_, hat⟩
    rw [skipSerial, hnext, ok_bind]
    simp only [hne, if_false, ok_bind]
    rw [failIf_bind (c := field.tag ≠ tagInteger) (not_not.mpr htag)]
    rfl
  | present hb =>
    obtain ⟨field, r₁, hnext, htag, -, hat, -, -⟩ := next_reads h hb
    obtain ⟨serial', r', hnext', htag', -, hat, -, -⟩ := next_reads hat hserial
    have hctx : field.tag = tagCtx 0 := htag
    refine ⟨r', ?_, hat⟩
    rw [skipSerial, hnext, ok_bind]
    simp only [hctx, if_true, hnext', ok_bind]
    rw [failIf_bind (c := serial'.tag ≠ tagInteger) (not_not.mpr htag')]
    rfl

theorem readName_split {r r' : AsnReader} {name : Span} {rest : Bytes} (h : At r rest) (hread : readName 64 r = .ok (name, r')) :
    ∃ tag value rest', rest = name.bytes ++ rest' ∧ Encodes tag value name.bytes ∧ At r' rest' := by
  simp only [readName, bind_eq_ok, Prod.exists, pure_eq_ok, Except.ok.injEq, Prod.mk.injEq] at hread
  obtain ⟨t, r₁, hnext, view, hview, rfl, rfl⟩ := hread
  obtain ⟨b, rest', rfl, hb, hat, -, hview'⟩ := next_split h hnext
  obtain rfl := Except.ok.inj (hview.symm.trans hview')
  exact ⟨_, _, rest', rfl, hb, hat⟩

theorem readName_reads {r : AsnReader} {tag : Byte} {value b rest : Bytes} (h : At r (b ++ rest)) (hb : Encodes tag value b) :
    ∃ name r', readName 64 r = .ok (name, r') ∧ name.bytes = b ∧ At r' rest := by
  obtain ⟨t, r', hnext, -, -, hat, -, hview⟩ := next_reads h hb
  refine ⟨⟨r.span.off + r.pos, b⟩, r', ?_, rfl, hat⟩
  rw [readName, hnext, ok_bind]
  simp only [hview, ok_bind, pure_eq_ok]

/-- What `parseTbs` returns, without the places of the names. -/
def valuesOf (f : TbsFields) : TbsValues :=
  ⟨f.issuerDer.bytes, f.subjectDer.bytes, f.validity.1, f.validity.2, f.pubkey.1, f.pubkey.2, f.isCa⟩

theorem parseTbs_split {t : Tlv} (h : At (.init t.value) t.value.bytes) {f : TbsFields} (hparse : parseTbs 64 t = .ok f) :
    Tbs t.value.bytes (valuesOf f) := by
  simp only [parseTbs, bind_eq_ok, Prod.exists, pure_eq_ok, Except.ok.injEq] at hparse
  obtain ⟨r₁, hserial, alg, r₂, halg, issuer, r₃, hissuer, validity, r₄, hvalidity, _, _, htimes, subject, r₅, hsubject, spki, r₆,
    hspki, qx, qy, hkey, ca, hca, rfl⟩ := hparse
  obtain ⟨bversion, serial, bserial, rest, hrest, hversion, hbserial, hat⟩ := skipSerial_split h hserial
  obtain ⟨balg, rest, rfl, hbalg, hat, -, -⟩ := next_split hat halg
  obtain ⟨_, _, rest, rfl, hbissuer, hat⟩ := readName_split hat hissuer
  obtain ⟨bvalidity, rest, rfl, hbvalidity, hat, hatvalidity, -⟩ := next_split hat hvalidity
  obtain ⟨_, _, rest, rfl, hbsubject, hat⟩ := readName_split hat hsubject
  obtain ⟨bkey, bopts, rfl, hbkey, hat, hatkey, -⟩ := next_split hat hspki
  obtain ⟨nb, na, hvalid, heq⟩ := (parseValidity_iff hatvalidity).mp htimes
  obtain ⟨rfl, rfl⟩ := Prod.mk.inj heq
  have hlen := hat.length_eq
  obtain ⟨flag, hmany, rfl⟩ := (loop_optionalFields.iff _ hat (by omega)).mp hca
  rw [hrest]
  exact .mk hversion hbserial hbalg hbissuer hvalid hbvalidity hbsubject ((parseSpki_iff hatkey).mp hkey) hbkey hmany

theorem parseTbs_reads {t : Tlv} {values : TbsValues} (h : At (.init t.value) t.value.bytes) (htbs : Tbs t.value.bytes values) :
    ∃ f, parseTbs 64 t = .ok f ∧ values = valuesOf f := by
  generalize t.value.bytes = bytes at h htbs
  cases htbs with
  | @mk _ _ _ _ _ _ _ _ _ _ _ _ _ _ _ _ _ _ _ nb na qx qy ca hversion hbserial hbalg hbissuer htimes hbvalidity hbsubject hkey hbkey hmany =>
  obtain ⟨r₁, hserial, hat₁⟩ := skipSerial_reads h hversion hbserial
  obtain ⟨alg, r₂, halg, -, -, hat₂, -, -⟩ := next_reads hat₁ hbalg
  obtain ⟨issuer, r₃, hissuer, rfl, hat₃⟩ := readName_reads hat₂ hbissuer
  obtain ⟨validity, r₄, hvalidity, -, rfl, hat₄, hatvalidity, -⟩ := next_reads hat₃ hbvalidity
  obtain ⟨subject, r₅, hsubject, rfl, hat₅⟩ := readName_reads hat₄ hbsubject
  obtain ⟨spki, r₆, hspki, -, rfl, hat₆, hatkey, -⟩ := next_reads hat₅ hbkey
  have hlen := hat₆.length_eq
  have htimes := (parseValidity_iff hatvalidity).mpr ⟨nb, na, htimes, rfl⟩
  have hkey := (parseSpki_iff hatkey).mpr hkey
  have hca : optionalLoop 64 (r₆.span.len + 1) false r₆ = .ok ca :=
    (loop_optionalFields.iff _ hat₆ (by omega)).mpr ⟨ca, hmany, rfl⟩
  refine ⟨⟨issuer, subject, (nb.canonical, na.canonical), (qx, qy), ca⟩, ?_, rfl⟩
  simp only [parseTbs, hserial, ok_bind, halg, hissuer, hvalidity, htimes, hsubject, hspki, hkey, hca, pure_eq_ok]

theorem checkSigAlg_iff {t : Tlv} (h : At (.init t.value) t.value.bytes) : checkSigAlg 64 t = .ok () ↔
    ∃ boid rest, t.value.bytes = boid ++ rest ∧ Encodes 0x06 Spec.X509.ecdsaWithSha256 boid := by
  constructor
  · intro hcheck
    simp only [checkSigAlg, bind_eq_ok, failIf_eq_ok, Bool.not_eq_false, Prod.exists, oidEq_iff] at hcheck
    obtain ⟨t', r, hnext, htag, hvalue⟩ := hcheck
    obtain ⟨boid, rest, hrest, hboid, -, -, -⟩ := next_split h hnext
    rw [htag, hvalue] at hboid
    exact ⟨boid, rest, hrest, hboid⟩
  · rintro ⟨boid, rest, hrest, hboid⟩
    rw [hrest] at h
    obtain ⟨t', r, hnext, htag, hvalue, -, -, -⟩ := next_reads h hboid
    have hoid : oidEq t' oidEcdsaWithSha256 = true := oidEq_iff.mpr ⟨htag, hvalue⟩
    simp only [checkSigAlg, hnext, ok_bind, hoid, failIf, Bool.true_eq_false, if_false]

theorem parseSigVal_iff {t : Tlv} (h : At (.init t.value) t.value.bytes) {r s : BytesN 32} : parseSigVal 64 t = .ok (r, s) ↔
    t.tag = 0x03 ∧ ∃ sig, t.value.bytes = [0x00] ++ sig ∧ SigValue sig r s := by
  have hlt := h.len_lt
  constructor
  · intro hparse
    rw [parseSigVal, bind_eq_ok] at hparse
    obtain ⟨bits, hbits, hparse⟩ := hparse
    obtain ⟨htag, hvalue, -⟩ := readBitstringBytes_iff.mp hbits
    rw [AsnReader.init, Span.len, hvalue, List.length_append] at hlt
    exact ⟨htag, bits.bytes, hvalue, (readEcdsaSigValue_iff (lt_of_le_of_lt (Nat.le_add_left _ _) hlt)).mp hparse⟩
  · rintro ⟨htag, sig, hvalue, hsig⟩
    have hbits : readBitstringBytes t = .ok ⟨t.value.off + 1, sig⟩ := readBitstringBytes_iff.mpr ⟨htag, hvalue, rfl⟩
    rw [AsnReader.init, Span.len, hvalue, List.length_append] at hlt
    rw [parseSigVal, hbits, ok_bind]
    exact (readEcdsaSigValue_iff (lt_of_le_of_lt (Nat.le_add_left _ _) hlt)).mpr hsig

/-- A certificate, without the places of its views. -/
def certValues (c : X509Cert) : Values :=
  ⟨c.tbsDer.bytes, ⟨c.issuerDer.bytes, c.subjectDer.bytes, c.notBefore, c.notAfter, c.pubkeyQx, c.pubkeyQy, c.isCa⟩,
    c.sigR, c.sigS⟩

theorem cert_of_parse {der : Bytes} (hsz : der.length < 2 ^ 64) {c : X509Cert} (h : x509Parse 64 der = .ok c) :
    Cert der (certValues c) := by
  simp only [x509Parse, bind_eq_ok, failIf_eq_ok, exists_const, not_not, Prod.exists, pure_eq_ok, Except.ok.injEq] at h
  obtain ⟨cert, hcert, htag, tbs, r₁, htbs, htbsTag, view, hview, alg, r₂, halg, ⟨⟩, hcheck, sigVal, r₃, hsigVal, r, s, hsig, f, hf,
    rfl⟩ := h
  obtain ⟨b, after, hder, hb, hat⟩ := parseTlv_split (s := .ofBytes der) hsz hcert
  obtain ⟨btbs, rest, hrest, hbtbs, hat, hattbs, hview'⟩ := next_split hat htbs
  obtain rfl := Except.ok.inj (hview.symm.trans hview')
  obtain ⟨balg, rest, rfl, hbalg, hat, hatalg, -⟩ := next_split hat halg
  obtain ⟨bsig, more, rfl, hbsig, -, hatsig, -⟩ := next_split hat hsigVal
  obtain ⟨boid, algRest, halgRest, hboid⟩ := (checkSigAlg_iff hatalg).mp hcheck
  obtain ⟨hsigTag, sig, hsigBytes, hsigValue⟩ := (parseSigVal_iff hatsig).mp hsig
  rw [htag, hrest] at hb
  rw [htbsTag] at hbtbs
  rw [halgRest] at hbalg
  rw [hsigTag, hsigBytes] at hbsig
  obtain rfl : der = b ++ after := hder
  exact .mk (parseTbs_split hattbs hf) hbtbs hboid hbalg hsigValue hbsig hb

theorem parse_of_cert {der : Bytes} {v : Values} (hsz : der.length < 2 ^ 64) (h : Cert der v) :
    ∃ c, x509Parse 64 der = .ok c ∧ certValues c = v := by
  cases h with
  | @mk _ btbs _ _ _ _ _ _ b after _ _ r s htbs hbtbs hboid hbalg hsig hbsig hb =>
  obtain ⟨cert, hcert, htag, -, hat⟩ := parseTlv_reads (s := .ofBytes (b ++ after)) rfl hsz hb
  obtain ⟨tbs, r₁, hreadtbs, htbsTag, rfl, hat₁, hattbs, hview⟩ := next_reads hat hbtbs
  obtain ⟨alg, r₂, halg, -, halgBytes, hat₂, hatalg, -⟩ := next_reads hat₁ hbalg
  obtain ⟨sigVal, r₃, hsigVal, hsigTag, hsigBytes, -, hatsig, -⟩ := next_reads hat₂ hbsig
  obtain ⟨f, hf, rfl⟩ := parseTbs_reads hattbs htbs
  have hcheck := (checkSigAlg_iff (halgBytes ▸ hatalg)).mpr ⟨_, _, halgBytes, hboid⟩
  have hparse := (parseSigVal_iff (hsigBytes ▸ hatsig)).mpr ⟨hsigTag, _, hsigBytes, hsig⟩
  refine ⟨⟨⟨(AsnReader.init cert.value).span.off + (AsnReader.init cert.value).pos, btbs⟩, f.issuerDer, f.subjectDer, f.validity.1,
    f.validity.2, f.pubkey.1, f.pubkey.2, f.isCa, r, s⟩, ?_, rfl⟩
  rw [x509Parse, hcert, ok_bind, failIf_bind (c := cert.tag ≠ tagSequence) (not_not.mpr htag)]
  simp only [hreadtbs, ok_bind]
  rw [failIf_bind (c := tbs.tag ≠ tagSequence) (not_not.mpr htbsTag), hview, ok_bind]
  simp only [halg, hcheck, hsigVal, hparse, hf, ok_bind, pure_eq_ok]

/-- For all strings that fit into memory: `nd_x509_parse` accepts exactly those that the grammar derives, and what it returns is
what the derivation has. -/
theorem parse_iff_derives (der : Bytes) (hsz : der.length < 2 ^ 64) (v : Values) :
    Cert der v ↔ ∃ c, x509Parse 64 der = .ok c ∧ certValues c = v := by
  constructor
  · exact parse_of_cert hsz
  · rintro ⟨c, hparse, rfl⟩
    exact cert_of_parse hsz hparse

theorem parse_iff_derives_sample : ∃ v, Cert (Spec.X509.certificate sampleTbs (beNat (zeros 32).1) (beNat (zeros 32).1)) v ∧
    v.tbsDer = sampleTbs.encode ∧ v.tbs.notBefore = 20250101000000 := by
  have hsz : (Spec.X509.certificate sampleTbs (beNat (zeros 32).1) (beNat (zeros 32).1)).length < 2 ^ 64 := by decide +kernel
  obtain ⟨i, j, hparse⟩ := x509Parse_certificate sampleTbs (zeros 32) (zeros 32) hsz
  exact ⟨_, (parse_iff_derives _ hsz _).mpr ⟨_, hparse, rfl⟩, rfl, (by decide : sampleTbs.notBefore.canonical = 20250101000000)⟩

end ND.Proof.X509
