import NanoDtls.Impl.Asn1
import NanoDtls.Proof.Wire
import NanoDtls.Spec.X509

/-!
# DER

`nd_asn1_parse_tlv` on a TLV (`parseTlv_tlv`), and readers of TLVs: `At r
rest` says that `rest` is what a reader has still to read. The signatures that
`nd_asn1_write_ecdsa_sig_value` writes are read back (`readEcdsaSigValue_write`).
-/

namespace ND.Proof.Asn1

open ND.Impl ND.Impl.Asn1
open Spec.X509 (tlv lengthOctets)
open Proof.Record (readSlice_append bytesN_eq)

/-! ## TLVs -/

/-- The length of the tag and the length octets. -/
def headerLen (n : Nat) : Nat := 1 + (lengthOctets n).length

/-- The TLV that is parsed from a value that is `off` bytes into the input. -/
def tlvAt (tag : Byte) (off : Nat) (value : Bytes) : Tlv := ⟨tag, tag &&& 0x20 != 0, headerLen value.length, ⟨off, value⟩⟩

theorem tlvAt_tag_ne (off : Nat) (value : Bytes) {tag tag' : Byte} (h : tag ≠ tag') : (tlvAt tag off value).tag ≠ tag' := h

theorem length_tlv (tag : Byte) (value : Bytes) : (tlv tag value).length = headerLen value.length + value.length := by
  simp only [tlv, headerLen, List.length_append, List.length_singleton]

theorem two_le_headerLen (n : Nat) : 2 ≤ headerLen n := by
  rw [headerLen, lengthOctets]
  split <;> simp only [List.length_cons, List.length_nil] <;> omega

/-- The bits of the first length octet. -/
theorem shortLength_bit : ∀ n < 128, BitVec.ofNat 8 n &&& 0x80 = 0 := by decide +kernel

theorem longLength_bits : ∀ k < 9, BitVec.ofNat 8 (128 + k) &&& 0x80 ≠ 0 ∧ (BitVec.ofNat 8 (128 + k) &&& 0x7F).toNat = k := by
  decide +kernel

/-- The length octets give the length back. -/
theorem parseLen_lengthOctets (tag : Byte) {n : Nat} (rest : Bytes) (off : Nat) (hn : n < 2 ^ 64) :
    ∃ len0, readAt ([tag] ++ lengthOctets n ++ rest) 1 = .ok len0 ∧
      parseLen 64 ⟨off, [tag] ++ lengthOctets n ++ rest⟩ len0 = .ok (headerLen n, n) := by
  rw [headerLen]
  by_cases hshort : n < 128
  · have hval : (BitVec.ofNat 8 n).toNat = n := by rw [BitVec.toNat_ofNat, Nat.mod_eq_of_lt (by omega)]
    rw [lengthOctets, if_pos hshort]
    refine ⟨BitVec.ofNat 8 n, rfl, ?_⟩
    rw [parseLen, if_pos (shortLength_bit n hshort), hval, Nat.mod_eq_of_lt hn]
    rfl
  · have hk : Nat.log 256 n + 1 < 9 := Nat.succ_lt_succ (Nat.log_lt_of_lt_pow' (by decide) (by simpa using hn))
    have hpow : n < 256 ^ (Nat.log 256 n + 1) := Nat.lt_pow_succ_log_self (by decide) n
    rw [lengthOctets, if_neg hshort]
    generalize Nat.log 256 n + 1 = k at hk hpow ⊢
    obtain ⟨hbit, hval⟩ := longLength_bits k hk
    have hk0 : k ≠ 0 := by
      intro h0
      rw [h0] at hpow
      omega
    refine ⟨BitVec.ofNat 8 (128 + k), rfl, ?_⟩
    have hslice : readSlice ([tag] ++ BitVec.ofNat 8 (128 + k) :: beBytes k n ++ rest) 2 k = .ok (beBytes k n) :=
      readSlice_append [tag, BitVec.ofNat 8 (128 + k)] _ rest (by simp) rfl (length_beBytes k n)
    have hlen : 2 + k ≤ ([tag] ++ BitVec.ofNat 8 (128 + k) :: beBytes k n ++ rest).length := by
      simp only [List.length_append, List.length_cons, List.length_nil, length_beBytes]
      omega
    rw [parseLen, if_neg hbit]
    simp only [hval]
    rw [failIf_bind hk0, failIf_bind (by omega), failIf_bind (by simp only [Nat.mod_eq_of_lt (show 2 + k < 2 ^ 64 by omega), Span.len]; omega),
      hslice, ok_bind, beNat_beBytes, Nat.mod_eq_of_lt hpow, Nat.mod_eq_of_lt hn, List.length_cons, length_beBytes,
      pure_eq_ok, show 1 + (k + 1) = 2 + k by omega]

/-- A TLV, with anything after it. -/
theorem parseTlv_tlv (tag : Byte) (value rest : Bytes) (off : Nat) (htag : tag &&& 0x1F ≠ 0x1F)
    (hsz : (tlv tag value ++ rest).length < 2 ^ 64) :
    parseTlv 64 ⟨off, tlv tag value ++ rest⟩ = .ok (tlvAt tag (off + headerLen value.length) value) := by
  have hlen : (tlv tag value ++ rest).length = headerLen value.length + value.length + rest.length := by
    rw [List.length_append, length_tlv]
  have h2 := two_le_headerLen value.length
  have hbuf : tlv tag value ++ rest = [tag] ++ lengthOctets value.length ++ (value ++ rest) := by
    rw [tlv, List.append_assoc]
  rw [hbuf] at hsz hlen ⊢
  obtain ⟨len0, h1, hparse⟩ := parseLen_lengthOctets tag (value ++ rest) off (show value.length < 2 ^ 64 by omega)
  have h0 : readAt ([tag] ++ lengthOctets value.length ++ (value ++ rest)) 0 = .ok tag := rfl
  have hvalue : readSlice ([tag] ++ lengthOctets value.length ++ (value ++ rest)) (headerLen value.length) value.length =
      .ok value := readSlice_append _ _ rest rfl (by simp only [headerLen, List.length_append, List.length_singleton]) rfl
  rw [parseTlv, failIf_bind (by simp only [Span.len]; omega)]
  simp only [h0, h1, ok_bind]
  rw [failIf_bind htag, hparse, ok_bind]
  simp only
  have hmod : (headerLen value.length + value.length) % 2 ^ 64 = headerLen value.length + value.length :=
    Nat.mod_eq_of_lt (by omega)
  rw [hmod, failIf_bind (by omega), failIf_bind (by simp only [Span.len]; omega), Span.sub, hvalue]
  rfl

/-! ## Readers -/

/-- `rest` is what `r` has still to read. -/
structure At (r : AsnReader) (rest : Bytes) : Prop where
  pos_le : r.pos ≤ r.span.len
  drop_eq : r.span.bytes.drop r.pos = rest
  len_lt : r.span.len < 2 ^ 64

theorem at_init {b : Bytes} (off : Nat) (h : b.length < 2 ^ 64) : At (AsnReader.init ⟨off, b⟩) b := ⟨Nat.zero_le _, rfl, h⟩

/-- The reader after `n` bytes. -/
def advance (r : AsnReader) (n : Nat) : AsnReader := { r with pos := r.pos + n }

theorem At.length_eq {r : AsnReader} {rest : Bytes} (h : At r rest) : r.span.len = r.pos + rest.length := by
  have hlen := congrArg List.length h.drop_eq
  have hle := h.pos_le
  rw [List.length_drop] at hlen
  rw [Span.len] at hle ⊢
  omega

theorem At.advance {r : AsnReader} {data rest : Bytes} (h : At r (data ++ rest)) : At (advance r data.length) rest := by
  have hlen := h.length_eq
  rw [List.length_append] at hlen
  refine ⟨?_, ?_, h.len_lt⟩
  · rw [Asn1.advance]
    simp only
    omega
  · rw [Asn1.advance, ← List.drop_drop, h.drop_eq, List.drop_left]

theorem At.done {r : AsnReader} {rest : Bytes} (h : At r rest) : r.done = true ↔ rest = [] := by
  rw [AsnReader.done, decide_eq_true_eq, h.length_eq, ← List.length_eq_zero_iff]
  omega

/-- The rest of the input, as `nd_asn1_reader_next` sees it. -/
theorem At.sub {r : AsnReader} {data rest : Bytes} (h : At r (data ++ rest)) :
    r.span.sub r.pos data.length = .ok ⟨r.span.off + r.pos, data⟩ := by
  have hlen := h.length_eq
  rw [List.length_append, Span.len] at hlen
  rw [Span.sub, readSlice, if_pos (by omega), h.drop_eq, List.take_left]
  rfl

/-- The next TLV of a reader. -/
theorem At.next {r : AsnReader} {tag : Byte} {value rest : Bytes} (h : At r (tlv tag value ++ rest))
    (htag : tag &&& 0x1F ≠ 0x1F) :
    r.next 64 = .ok (tlvAt tag (r.span.off + r.pos + headerLen value.length) value, Asn1.advance r (tlv tag value).length) ∧
      At (Asn1.advance r (tlv tag value).length) rest := by
  have hlen := h.length_eq
  have hlt := h.len_lt
  have hsub := At.sub (show At r ((tlv tag value ++ rest) ++ []) by rw [List.append_nil]; exact h)
  have h2 := two_le_headerLen value.length
  have hpos : r.span.len - r.pos = (tlv tag value ++ rest).length := by omega
  refine ⟨?_, h.advance⟩
  rw [List.length_append, length_tlv] at hlen
  rw [AsnReader.next, failIf_bind (by omega), hpos, hsub, ok_bind,
    parseTlv_tlv tag value rest _ htag (by rw [List.length_append, length_tlv]; omega), ok_bind]
  simp only [tlvAt, Span.len, pure_eq_ok, Asn1.advance, length_tlv]
  rw [Nat.mod_eq_of_lt (by omega)]

/-- A TLV that is kept whole. -/
theorem At.tlvView {r : AsnReader} {tag : Byte} {value rest : Bytes} (h : At r (tlv tag value ++ rest)) (off : Nat) :
    r.tlvView r.pos (tlvAt tag off value) = .ok ⟨r.span.off + r.pos, tlv tag value⟩ := by
  rw [AsnReader.tlvView, tlvAt, Span.len, ← length_tlv tag value]
  exact h.sub

/-! ## Signatures -/

theorem length_dropZeros_le : ∀ l : Bytes, (dropZeros l).length ≤ l.length
  | [] => Nat.le_refl _
  | [_] => Nat.le_refl _
  | b :: c :: l => by
    unfold dropZeros
    split
    · exact (length_dropZeros_le (c :: l)).trans (Nat.le_succ _)
    · exact Nat.le_refl _

theorem dropZeros_ne_nil : ∀ {l : Bytes}, l ≠ [] → dropZeros l ≠ []
  | [], h => absurd rfl h
  | [_], _ => by simp [dropZeros]
  | b :: c :: l, _ => by
    unfold dropZeros
    split
    · exact dropZeros_ne_nil (by simp)
    · simp

/-- Only zeros were dropped. -/
theorem replicate_dropZeros : ∀ l : Bytes, List.replicate (l.length - (dropZeros l).length) 0 ++ dropZeros l = l
  | [] => rfl
  | [_] => by simp [dropZeros]
  | b :: c :: l => by
    unfold dropZeros
    split
    · rename_i hb
      have hle := length_dropZeros_le (c :: l)
      have ih := replicate_dropZeros (c :: l)
      rw [hb, List.length_cons, Nat.succ_sub hle, List.replicate_succ, List.cons_append, ih]
    · simp

/-- What is left starts with a byte other than zero, or is one byte. -/
theorem dropZeros_head : ∀ {l : Bytes}, 1 < (dropZeros l).length → (dropZeros l).head? ≠ some 0
  | [], h => by simp [dropZeros] at h
  | [_], h => by simp [dropZeros] at h
  | b :: c :: l, h => by
    unfold dropZeros at h ⊢
    split at h
    · rw [if_pos (by assumption)]
      exact dropZeros_head h
    · rw [if_neg (by assumption)]
      simpa using by assumption

/-- The content octets of the INTEGER that `der_encode_uint32` writes. -/
def integerContent (val : BytesN 32) : Bytes :=
  (if (dropZeros val.1).headD 0 &&& 0x80 != 0 then [0x00] else []) ++ dropZeros val.1

theorem length_integerContent (val : BytesN 32) : (integerContent val).length ≤ 33 := by
  have hle := length_dropZeros_le val.1
  rw [val.2] at hle
  rw [integerContent, List.length_append]
  split <;> simp <;> omega

theorem length_integerContent_pos (val : BytesN 32) : 1 ≤ (integerContent val).length := by
  have hne : dropZeros val.1 ≠ [] := dropZeros_ne_nil (by rw [← List.length_pos_iff, val.2]; decide)
  have hpos := List.length_pos_iff.mpr hne
  rw [integerContent, List.length_append]
  omega

theorem topBit_eq : ∀ n < 256, (BitVec.ofNat 8 n &&& 0x80 != 0) = decide (128 ≤ n) := by decide +kernel

theorem beNat_zeros_append (k : Nat) (l : Bytes) : beNat (List.replicate k 0 ++ l) = beNat l := by
  rw [beNat_append, beNat_replicate_zero, Nat.mul_zero, Nat.zero_add]

/-- They are the shortest octets of the value with a clear top bit. -/
theorem integerContent_eq (val : BytesN 32) :
    integerContent val = beBytes ((beNat val.1).size / 8 + 1) (beNat val.1) := by
  have hhead := @dropZeros_head val.1
  have hne : dropZeros val.1 ≠ [] := dropZeros_ne_nil (by rw [← List.length_pos_iff, val.2]; decide)
  have hval : beNat val.1 = beNat (dropZeros val.1) := by
    rw [← replicate_dropZeros val.1, beNat_zeros_append, replicate_dropZeros]
  rw [integerContent, hval]
  obtain ⟨b, ds, hd⟩ := List.exists_cons_of_ne_nil hne
  rw [hd] at hhead ⊢
  have hlt := beNat_lt ds
  have hb := b.isLt
  have htop : (b &&& 0x80 != 0) = decide (128 ≤ b.toNat) := by
    rw [← topBit_eq b.toNat hb, BitVec.ofNat_toNat, BitVec.setWidth_eq]
  have hn := beNat_cons b ds
  have hpow : 2 ^ (8 * ds.length) = 256 ^ ds.length := by rw [Nat.pow_mul]
  by_cases hpad : 128 ≤ b.toNat
  · -- a padding byte, because the top bit is set
    have hlow : 2 ^ (8 * ds.length + 7) ≤ beNat (b :: ds) := by
      rw [Nat.pow_add, hpow, hn]
      exact (Nat.mul_le_mul_left _ hpad).trans (Nat.le_add_right _ _)
    have hhigh : beNat (b :: ds) < 2 ^ (8 * ds.length + 8) := by
      have := beNat_lt (b :: ds)
      rwa [List.length_cons, Nat.pow_succ, ← hpow, show (256 : Nat) = 2 ^ 8 from rfl, ← Nat.pow_add] at this
    have hsize : (beNat (b :: ds)).size / 8 + 1 = ([0x00] ++ b :: ds).length := by
      have := Nat.lt_size.mpr hlow
      have := Nat.size_le.mpr hhigh
      simp only [List.length_append, List.length_cons, List.length_nil]
      omega
    rw [List.headD_cons, htop, decide_eq_true hpad, if_pos rfl, hsize]
    exact (beBytes_beNat ([0x00] ++ b :: ds)).symm.trans (by rw [show beNat ([0x00] ++ b :: ds) = beNat (b :: ds) from
      beNat_zeros_append 1 (b :: ds)])
  · have hhigh : beNat (b :: ds) < 2 ^ (8 * ds.length + 7) := by
      rw [Nat.pow_add, hpow, hn]
      calc 256 ^ ds.length * b.toNat + beNat ds
          < 256 ^ ds.length * b.toNat + 256 ^ ds.length := Nat.add_lt_add_left hlt _
        _ = 256 ^ ds.length * (b.toNat + 1) := by rw [Nat.mul_add, Nat.mul_one]
        _ ≤ 256 ^ ds.length * 2 ^ 7 := Nat.mul_le_mul_left _ (by omega)
    have hsize : (beNat (b :: ds)).size / 8 + 1 = (b :: ds).length := by
      have := Nat.size_le.mpr hhigh
      rw [List.length_cons]
      by_cases h0 : ds.length = 0
      · omega
      · -- the first byte is not zero
        have hb0 : 1 ≤ b.toNat := by
          have hz := hhead (by rw [List.length_cons]; omega)
          rw [List.head?_cons] at hz
          refine Nat.one_le_iff_ne_zero.mpr fun hz' => hz ?_
          rw [show b = 0 from BitVec.eq_of_toNat_eq hz']
        have hlow : 2 ^ (8 * ds.length) ≤ beNat (b :: ds) := by
          rw [hpow, hn]
          exact (Nat.le_mul_of_pos_right _ hb0).trans (Nat.le_add_right _ _)
        have := Nat.lt_size.mpr hlow
        omega
    rw [List.headD_cons, htop, decide_eq_false hpad, if_neg Bool.false_ne_true, List.nil_append, hsize]
    exact (beBytes_beNat (b :: ds)).symm

/-- `nd_asn1_read_uint_fixed` undoes it. -/
theorem readUintFixed_integer (val : BytesN 32) (constructed : Bool) (headerLen off : Nat) :
    readUintFixed ⟨tagInteger, constructed, headerLen, ⟨off, integerContent val⟩⟩ 32 = .ok val := by
  have hle := length_dropZeros_le val.1
  have hback := replicate_dropZeros val.1
  have hhead := @dropZeros_head val.1
  have hne : dropZeros val.1 ≠ [] := dropZeros_ne_nil (by rw [← List.length_pos_iff, val.2]; decide)
  rw [val.2] at hle hback
  generalize hd : dropZeros val.1 = digits at *
  match digits with
  | b :: ds =>
    simp only [List.length_cons] at hle hhead hback
    have hbytes : bytesN 32 (List.replicate (32 - (ds.length + 1)) 0 ++ b :: ds) = .ok val := by
      rw [hback]
      exact bytesN_eq val
    rw [readUintFixed, integerContent, hd]
    by_cases hpad : (b &&& 0x80 != 0) = true
    · -- the padding byte is stripped again
      simp only [List.headD_cons, hpad, ↓reduceIte, List.singleton_append, Span.len, List.length_cons]
      rw [failIf_bind (by simp), failIf_bind (by simp)]
      simp only [readAt, List.getElem?_cons_zero, ok_bind, beq_self_eq_true, Bool.and_true, show 1 < ds.length + 1 + 1 by omega,
        decide_true, ↓reduceIte, List.drop_one, List.tail_cons, List.length_cons]
      rw [failIf_bind (by omega), failIf_bind (by simp), hbytes]
    · -- the first byte is not zero unless it is the only one
      have hstrip : (decide (1 < ds.length + 1) && b == 0) = false := by
        by_cases h1 : 1 < ds.length + 1
        · simpa [h1] using hhead h1
        · simp [h1]
      have htop : b &&& 0x80 = 0 := by simpa using hpad
      simp only [List.headD_cons, hpad, Bool.false_eq_true, ↓reduceIte, List.nil_append, Span.len, List.length_cons]
      rw [failIf_bind (by simp), failIf_bind (by simp)]
      simp only [readAt, List.getElem?_cons_zero, ok_bind, hstrip, Bool.false_eq_true, ↓reduceIte, List.length_cons]
      rw [failIf_bind (by omega), failIf_bind (fun h => h.2 htop), hbytes]

theorem lengthOctets_short {n : Nat} (h : n < 128) : lengthOctets n = beBytes 1 n := by
  rw [lengthOctets, if_pos h]
  simp [beBytes]

theorem derEncodeUint32_eq (val : BytesN 32) : derEncodeUint32 val = tlv tagInteger (integerContent val) := by
  have := length_integerContent val
  rw [tlv, lengthOctets_short (by omega)]
  rfl

/-- The DER form of a signature. -/
def signatureDer (r s : BytesN 32) : Bytes :=
  tlv tagSequence (tlv tagInteger (integerContent r) ++ tlv tagInteger (integerContent s))

theorem signatureDer_eq (r s : BytesN 32) : signatureDer r s = Spec.X509.ecdsaSigValue (beNat r.1) (beNat s.1) := by
  rw [signatureDer, integerContent_eq, integerContent_eq]
  rfl

theorem headerLen_short {n : Nat} (h : n < 128) : headerLen n = 2 := by
  rw [headerLen, lengthOctets_short h, length_beBytes]

theorem headerLen_two {n : Nat} (h : 256 ≤ n) (h' : n < 65536) : headerLen n = 4 := by
  have hlog : Nat.log 256 n = 1 := Nat.log_eq_of_pow_le_of_lt_pow h h'
  rw [headerLen, lengthOctets, if_neg (by omega), hlog, List.length_cons, length_beBytes]

theorem length_integer (val : BytesN 32) : (tlv tagInteger (integerContent val)).length ≤ 35 := by
  have := length_integerContent val
  rw [length_tlv, headerLen_short (by omega)]
  omega

theorem length_signatureBody (r s : BytesN 32) :
    (tlv tagInteger (integerContent r) ++ tlv tagInteger (integerContent s)).length ≤ 70 := by
  have := length_integer r
  have := length_integer s
  rw [List.length_append]
  omega

theorem length_signatureDer (r s : BytesN 32) : (signatureDer r s).length ≤ 72 := by
  have := length_signatureBody r s
  rw [signatureDer, length_tlv, headerLen_short (by omega)]
  omega

theorem writeEcdsaSigValue_eq_ok {r s : BytesN 32} {cap : Nat} {out : Bytes} :
    writeEcdsaSigValue r s cap = .ok out ↔ (signatureDer r s).length ≤ cap ∧ signatureDer r s = out := by
  have hlen := length_signatureBody r s
  rw [writeEcdsaSigValue, derEncodeUint32_eq, derEncodeUint32_eq, signatureDer, length_tlv]
  generalize tlv tagInteger (integerContent r) ++ tlv tagInteger (integerContent s) = body at hlen ⊢
  rw [failIf_bind (by omega), failIf_bind_eq_ok, tlv, lengthOctets_short (by omega), headerLen_short (by omega), pure_eq_ok,
    Except.ok.injEq, Nat.not_lt]

theorem writeEcdsaSigValue_eq (r s : BytesN 32) : writeEcdsaSigValue r s 80 = .ok (signatureDer r s) :=
  writeEcdsaSigValue_eq_ok.mpr ⟨(length_signatureDer r s).trans (by decide), rfl⟩

/-- The signature that was written is read back. -/
theorem readEcdsaSigValue_write (r s : BytesN 32) (off : Nat) :
    readEcdsaSigValue 64 ⟨off, signatureDer r s⟩ = .ok (r, s) := by
  have hlen := length_signatureBody r s
  have hder := length_signatureDer r s
  rw [signatureDer] at hder ⊢
  have hseq := parseTlv_tlv tagSequence (tlv tagInteger (integerContent r) ++ tlv tagInteger (integerContent s)) [] off
    (by decide) (by rw [List.append_nil]; omega)
  rw [List.append_nil] at hseq
  have h := at_init (off + headerLen (tlv tagInteger (integerContent r) ++ tlv tagInteger (integerContent s)).length)
    (show (tlv tagInteger (integerContent r) ++ tlv tagInteger (integerContent s)).length < 2 ^ 64 by omega)
  rw [readEcdsaSigValue, hseq, ok_bind, failIf_bind (fun h => h rfl), tlvAt]
  simp only
  generalize AsnReader.init _ = rd at h ⊢
  obtain ⟨hr, h⟩ := h.next (by decide)
  rw [← List.append_nil (tlv tagInteger (integerContent s))] at h
  obtain ⟨hs, _⟩ := h.next (by decide)
  simp only [hr, hs, ok_bind, tlvAt, readUintFixed_integer, pure_eq_ok]

end ND.Proof.Asn1
