import NanoDtls.Proof.Aead
import NanoDtls.Proof.Reconstruct
import NanoDtls.Proof.Unified
import NanoDtls.Spec.Record

/-!
# Records

`recordProtect` writes one shape of record (`sealRecord_eq_record`), the one
that the general serializer writes for its header (`protect_serializes`).
`recordUnprotect` opens the records of any shape and padding
(`recordUnprotect_eq_ok`): what it accepts is authentic
(`unprotect_authentic`), and a record whose number is within half a window of
the highest one seen is accepted (`unprotect_record`).
-/

namespace ND.Proof.Record

open ND.Impl ND.Impl.Record ND.Impl.Aead
open Spec.Record (header innerPlaintext payload record nonce)

/-! ## The parts of a record -/

theorem buildNonce_eq (iv : BytesN 12) {n : Nat} (hn : n < 2 ^ 64) : buildNonce iv n = nonce iv n := by
  apply Subtype.ext
  apply beNat_inj ((buildNonce iv n).2.trans (nonce iv n).2.symm)
  have hiv : beNat iv.1 < 2 ^ 96 := (beNat_lt iv.1).trans_eq (by rw [iv.2]; rfl)
  have hxor : beNat iv.1 ^^^ n < 256 ^ 12 := Nat.xor_lt_two_pow hiv (hn.trans (by decide))
  have hlen : iv.1.length = (List.replicate 4 0 ++ beBytes 8 n).length := by
    rw [iv.2, List.length_append, List.length_replicate, length_beBytes]
  rw [buildNonce, nonce, beNat_zipWith_xor _ _ hlen, beNat_append, beNat_replicate_zero, Nat.mul_zero, Nat.zero_add,
    beNat_beBytes, beNat_beBytes, Nat.mod_eq_of_lt hxor]
  exact congrArg _ (Nat.mod_eq_of_lt hn)

theorem unifiedByte0_eq : ∀ (s l : Bool) (e : Byte),
    unifiedByte0 false s l e = BitVec.ofNat 8 (0x20 + 8 * s.toNat + 4 * l.toNat + e.toNat % 4) := by
  decide +kernel

/-- The bytes of a header without a connection ID. -/
theorem headerBytes_eq_header (hdr : UnifiedHdr) (epoch n : Nat) (hcid : hdr.cidPresent = false)
    (hepoch : hdr.epochLow2.toNat % 4 = epoch % 4) (hseq : hdr.sequenceNumber = n % 256 ^ seqSize hdr) (len : Nat) :
    headerBytes hdr len = header hdr.seqLenIs16bit hdr.lengthPresent epoch n len := by
  rw [headerBytes, header, hcid, unifiedByte0_eq, hepoch, hseq, beBytes_mod _ _ _ le_rfl]
  rfl

/-- The wire's low epoch bits are those of the epoch. -/
theorem epoch_low2 (e : BitVec 16) : (BitVec.setWidth 8 (e &&& 3)).toNat % 4 = e.toNat % 4 := by
  have h3 : e.toNat &&& 3 = e.toNat % 4 := Nat.and_two_pow_sub_one_eq_mod e.toNat 2
  rw [BitVec.toNat_setWidth, BitVec.toNat_and, show (3 : BitVec 16).toNat = 3 from rfl, h3]
  omega

theorem stripPadding_append {c : Byte} (l : Bytes) (hc : c ≠ 0) : stripPadding (l ++ [c]) = l ++ [c] := by
  rw [stripPadding, List.reverse_append, List.reverse_singleton, List.singleton_append,
    List.dropWhile_cons_of_neg (by simpa using hc), List.reverse_cons, List.reverse_reverse]

theorem stripPadding_append_zero (l : Bytes) : stripPadding (l ++ [0]) = stripPadding l := by
  rw [stripPadding, List.reverse_append, List.reverse_singleton, List.singleton_append,
    List.dropWhile_cons_of_pos (by simp), stripPadding]

theorem stripPadding_append_zeros (l : Bytes) (k : Nat) : stripPadding (l ++ List.replicate k 0) = stripPadding l := by
  induction k with
  | zero => rw [List.replicate_zero, List.append_nil]
  | succ k ih => rw [List.replicate_succ', ← List.append_assoc, stripPadding_append_zero, ih]

/-- Without its padding an inner plaintext is empty or ends with a byte that is not zero. -/
theorem stripPadding_cases (inner : Bytes) : stripPadding inner = [] ∨
    ∃ content c k, c ≠ 0 ∧ inner = innerPlaintext content c k ∧ stripPadding inner = content ++ [c] := by
  induction inner using List.reverseRecOn with
  | nil => exact .inl rfl
  | append_singleton l a ih =>
    by_cases ha : a = 0
    · rw [ha, stripPadding_append_zero]
      obtain hnil | ⟨content, c, k, hc, hl, hs⟩ := ih
      · exact .inl hnil
      · refine .inr ⟨content, c, k + 1, hc, ?_, hs⟩
        rw [hl, innerPlaintext, innerPlaintext, List.replicate_succ', ← List.append_assoc]
    · exact .inr ⟨l, a, 0, ha, by simp [innerPlaintext], stripPadding_append l ha⟩

/-- The content and its type are those of an inner plaintext, whatever its padding. -/
theorem splitInner_eq_ok {inner content : Bytes} {c : Byte} :
    splitInner inner = .ok (content, c) ↔ c ≠ 0 ∧ ∃ k, inner = innerPlaintext content c k := by
  constructor
  · intro h
    obtain hnil | ⟨content', c', k, hc, hinner, hs⟩ := stripPadding_cases inner
    · rw [splitInner, hnil] at h
      cases h
    · simp only [splitInner, hs, List.getLast?_concat, List.dropLast_concat, Except.ok.injEq, Prod.mk.injEq] at h
      obtain ⟨rfl, rfl⟩ := h
      exact ⟨hc, k, hinner⟩
  · rintro ⟨hc, k, rfl⟩
    simp only [splitInner, innerPlaintext, stripPadding_append_zeros, stripPadding_append content hc,
      List.getLast?_concat, List.dropLast_concat]

@[simp] theorem length_innerPlaintext (content : Bytes) (c : Byte) (k : Nat) :
    (innerPlaintext content c k).length = content.length + 1 + k := by
  simp only [innerPlaintext, List.length_append, List.length_singleton, List.length_replicate]

theorem innerPlaintext_zero (content : Bytes) (c : Byte) : innerPlaintext content c 0 = content ++ [c] :=
  List.append_nil _

@[simp] theorem length_payload (key : BytesN 32) (iv : BytesN 12) (n : Nat) (hdr inner : Bytes) :
    (payload key iv n hdr inner).length = inner.length + 16 := by
  rw [payload, List.length_append, aeadChacha20Poly1305Encrypt, Aead.length_chacha20Xor, BytesN.length_eq]

/-! ## Protection -/

/-- The record that protecting a plaintext gives. -/
def sealRecord (p : RecordProtection) (contentType : Byte) (plaintext : Bytes) : Bytes :=
  let header := writeFixedShapeHeader (p.epoch &&& 3) (p.nextSendSequence % 2 ^ 16) (plaintext.length + 17)
  let ct := aeadChacha20Poly1305Encrypt p.writeKey (buildNonce p.writeIv p.nextSendSequence) header
    (plaintext ++ [contentType])
  header ++ ct.1 ++ ct.2.1

theorem length_sealRecord (p : RecordProtection) (ct : Byte) (pt : Bytes) : (sealRecord p ct pt).length = pt.length + 22 := by
  simp only [sealRecord, List.length_append, aeadChacha20Poly1305Encrypt, Aead.length_chacha20Xor,
    BytesN.length_eq, writeFixedShapeHeader, length_beBytes, List.length_singleton]
  omega

/-- `recordProtect` succeeds on what fits the inner buffer and the output buffer. -/
theorem recordProtect_eq_ok {p p' : RecordProtection} {ct : Byte} {pt rec : Bytes} {cap : Nat} :
    recordProtect p ct pt cap = .ok (rec, p') ↔
      pt.length ≤ 2047 ∧ pt.length + 22 ≤ cap ∧ rec = sealRecord p ct pt ∧
        p' = { p with nextSendSequence := (p.nextSendSequence + 1) % 2 ^ 64 } := by
  have hlen : (pt ++ [ct]).length = pt.length + 1 := List.length_append
  unfold recordProtect
  simp only [failIf_bind_eq_ok]
  simp only [recordProtectMaxInner, pure_eq_ok, Except.ok.injEq, Prod.mk.injEq, hlen, sealRecord]
  constructor
  · rintro ⟨-, h1, h2, h3, h4⟩
    exact ⟨by omega, by omega, h3.symm, h4.symm⟩
  · rintro ⟨h1, h2, h3, h4⟩
    exact ⟨by rw [szAdd_eq (by omega)]; omega, by omega, by omega, h3.symm, h4.symm⟩

/-- The header of the fixed shape. -/
theorem writeFixedShapeHeader_eq (e : BitVec 16) (n len : Nat) :
    writeFixedShapeHeader (e &&& 3) (n % 2 ^ 16) len = header true true e.toNat n len := by
  have hbyte : unifiedFixedBitsVal ||| unifiedSeqlenBit ||| unifiedLenBit |||
      (BitVec.setWidth 8 (e &&& 3) &&& unifiedEpochMask) = unifiedByte0 false true true (BitVec.setWidth 8 (e &&& 3)) := by
    rw [unifiedByte0, show unifiedFixedBitsVal ||| (if false = true then unifiedCidBit else 0) = unifiedFixedBitsVal from rfl]
    rfl
  rw [writeFixedShapeHeader, hbyte, unifiedByte0_eq, epoch_low2, header, show 2 ^ 16 = 256 ^ 2 from rfl,
    beBytes_mod 2 2 n le_rfl]
  rfl

/-- The records that are sealed are those with a 16-bit number, a length and no padding. -/
theorem sealRecord_eq_record {p : RecordProtection} (hp : p.nextSendSequence < 2 ^ 64) (ct : Byte) (pt : Bytes) :
    sealRecord p ct pt = record p.writeKey p.writeIv p.epoch.toNat p.nextSendSequence true true pt ct 0 := by
  rw [sealRecord, record, writeFixedShapeHeader_eq, buildNonce_eq p.writeIv hp, innerPlaintext_zero, List.length_append,
    payload, List.append_assoc]
  rfl

@[simp] theorem length_header (s l : Bool) (epoch n len : Nat) :
    (header s l epoch n len).length = 1 + (if s then 2 else 1) + if l then 2 else 0 := by
  cases l <;> simp [header] <;> omega

/-- The header that the general serializer is given for a record of the fixed shape. It does not read the length. -/
def fixedShapeHdr (p : RecordProtection) : UnifiedHdr :=
  { cidPresent := false, seqLenIs16bit := true, lengthPresent := true, epochLow2 := BitVec.ofNat 8 (p.epoch.toNat % 4),
    cid := [], sequenceNumber := p.nextSendSequence % 2 ^ 16, length := 0 }

theorem headerBytes_fixedShapeHdr (p : RecordProtection) (len : Nat) :
    headerBytes (fixedShapeHdr p) len = header true true p.epoch.toNat p.nextSendSequence len := by
  refine headerBytes_eq_header (fixedShapeHdr p) _ _ rfl ?_ rfl len
  rw [fixedShapeHdr, BitVec.toNat_ofNat]
  omega

/-- The serializer on that header. -/
theorem serialize_fixedShapeHdr {p : RecordProtection} {pl out : Bytes} {cap : Nat} :
    unifiedSerialize (fixedShapeHdr p) pl cap = .ok out ↔ pl.length ≤ 0xFFFF ∧ out.length ≤ cap ∧
      out = header true true p.epoch.toNat p.nextSendSequence pl.length ++ pl := by
  rw [unifiedSerialize_eq_ok, headerBytes_fixedShapeHdr]
  simp [fixedShapeHdr]

/-- `recordProtect` writes what the general serializer writes for the header without connection ID, with the low 16
bits of the number, a length and the low two bits of the epoch, and for the payload that is encrypted and
authenticated together with those five bytes; it succeeds if the plaintext has at most 2047 bytes and that fits. -/
theorem protect_serializes (p : RecordProtection) (ct : Byte) (pt : Bytes) (cap : Nat)
    (hp : p.nextSendSequence < 2 ^ 64) :
    (∀ rec p', recordProtect p ct pt cap = .ok (rec, p') →
      unifiedSerialize (fixedShapeHdr p)
        (payload p.writeKey p.writeIv p.nextSendSequence (rec.take 5) (pt ++ [ct])) cap = .ok rec) ∧
    ((∃ r, recordProtect p ct pt cap = .ok r) ↔ pt.length ≤ 2047 ∧
      ∃ out, unifiedSerialize (fixedShapeHdr p) (payload p.writeKey p.writeIv p.nextSendSequence
        (header true true p.epoch.toNat p.nextSendSequence (pt.length + 17)) (pt ++ [ct])) cap = .ok out) := by
  have hlen : (pt ++ [ct]).length = pt.length + 1 := List.length_append
  refine ⟨?_, ?_⟩
  · intro rec p' h
    obtain ⟨hpt, hcap, rfl, -⟩ := recordProtect_eq_ok.mp h
    rw [sealRecord_eq_record hp, record, innerPlaintext_zero, hlen,
      List.take_left' (show (header true true _ _ _).length = 5 from length_header _ _ _ _ _)]
    refine serialize_fixedShapeHdr.mpr ⟨by rw [length_payload, hlen]; omega, ?_, by rw [length_payload, hlen]⟩
    rw [List.length_append, length_header, length_payload, hlen]
    simp only [↓reduceIte]
    omega
  · simp only [serialize_fixedShapeHdr, length_payload, hlen]
    constructor
    · rintro ⟨⟨rec, p'⟩, h⟩
      obtain ⟨hpt, hcap, -, -⟩ := recordProtect_eq_ok.mp h
      refine ⟨hpt, _, by omega, ?_, rfl⟩
      rw [List.length_append, length_header, length_payload, hlen]
      simp only [↓reduceIte]
      omega
    · rintro ⟨hpt, out, -, hcap, rfl⟩
      rw [List.length_append, length_header, length_payload, hlen] at hcap
      simp only [↓reduceIte] at hcap
      exact ⟨_, recordProtect_eq_ok.mpr ⟨hpt, by omega, rfl, rfl⟩⟩

theorem protect_serializes_first :
    (∃ r, recordProtect (recordProtectionInit (zeros 32) (zeros 12) 2) 23 [7] 23 = .ok r) ∧
      ∃ out, unifiedSerialize (fixedShapeHdr (recordProtectionInit (zeros 32) (zeros 12) 2))
        (payload (zeros 32) (zeros 12) 0 (header true true 2 0 18) [7, 23]) 23 = .ok out := by
  have hok : ∃ r, recordProtect (recordProtectionInit (zeros 32) (zeros 12) 2) 23 [7] 23 = .ok r :=
    ⟨_, recordProtect_eq_ok.mpr ⟨by decide, by decide, rfl, rfl⟩⟩
  exact ⟨hok, ((protect_serializes (recordProtectionInit (zeros 32) (zeros 12) 2) 23 [7] 23 (by decide)).2.mp hok).2⟩

/-! ## Unprotection -/

/-- The number that a receiver takes a header's bits for. -/
def numberOf (u : RecordUnprotection) (hdr : UnifiedHdr) : Nat :=
  reconstructSequenceNumber u.highestSeenSequence hdr.sequenceNumber (if hdr.seqLenIs16bit then 16 else 8)

theorem numberOf_lt (u : RecordUnprotection) (hdr : UnifiedHdr) : numberOf u hdr < 2 ^ 64 :=
  reconstructSequenceNumber_lt_two_pow _ _ _

/-- The receiver after the record number `n`. -/
def sawNumber (u : RecordUnprotection) (n : Nat) : RecordUnprotection :=
  { u with highestSeenSequence := max u.highestSeenSequence n }

/-- What `recordUnprotect` accepts: a record of the receiver's epoch whose payload is the encryption of some content,
under the nonce of the number and with the header's bytes. -/
theorem recordUnprotect_eq_ok {u u' : RecordUnprotection} {buf content : Bytes} {ct : Byte} {cap : Nat} :
    recordUnprotect u buf cap = .ok (content, ct, u') ↔
      ∃ (hdr : UnifiedHdr) (off : Nat) (c : Bytes) (tag : BytesN 16) (k : Nat),
        unifiedParse buf 0 = .ok (hdr, off, c ++ tag.1) ∧ hdr.epochLow2.toNat % 4 = u.epoch.toNat % 4 ∧ c.length ≤ 2048 ∧
        aeadChacha20Poly1305Encrypt u.readKey (buildNonce u.readIv (numberOf u hdr)) (buf.take off)
          (innerPlaintext content ct k) = (c, tag) ∧
        ct ≠ 0 ∧ content.length ≤ cap ∧ u' = sawNumber u (numberOf u hdr) := by
  unfold recordUnprotect
  simp only [bind_eq_ok, failIf_eq_ok, exists_const, Prod.exists, pure_eq_ok, Except.ok.injEq, Prod.mk.injEq,
    Aead.decrypt_eq_ok_iff, splitInner_eq_ok, ne_eq, not_not, reconstructEpoch_eq_iff]
  constructor
  · rintro ⟨hdr, off, pl, hparse, hepoch, h16, hmax, tag, htag, inner, henc, _, _, ⟨hct, k, rfl⟩, hcap, rfl, rfl, rfl⟩
    have hpl : pl.take (pl.length - 16) ++ tag.1 = pl := by
      rw [← bytesN_eq_ok.mp htag, List.take_append_drop]
    refine ⟨hdr, off, pl.take (pl.length - 16), tag, k, by rwa [hpl], hepoch, ?_, henc, hct, Nat.not_lt.mp hcap, rfl⟩
    rw [List.length_take]
    exact (Nat.min_le_left _ _).trans (Nat.not_lt.mp hmax)
  · rintro ⟨hdr, off, c, tag, k, hparse, hepoch, hmax, henc, hct, hcap, rfl⟩
    have hlen : (c ++ tag.1).length = c.length + 16 := by rw [List.length_append, tag.2]
    refine ⟨hdr, off, c ++ tag.1, hparse, hepoch, by omega, by rw [hlen]; exact Nat.not_lt.mpr hmax, tag, ?_, _, ?_, _, _,
      ⟨hct, k, rfl⟩, Nat.not_lt.mpr hcap, rfl, rfl, rfl⟩
    · rw [hlen, Nat.add_sub_cancel, List.drop_left, bytesN_eq]
    · rw [hlen, Nat.add_sub_cancel, List.take_left]
      exact henc

/-- The header of a record of any shape is read back. -/
theorem unifiedParse_header (s l : Bool) (epoch n : Nat) (pl rest : Bytes) (hpl : pl.length < 2 ^ 16)
    (hrest : l = false → rest = []) :
    unifiedParse (header s l epoch n pl.length ++ (pl ++ rest)) 0 =
      .ok (⟨false, s, l, BitVec.ofNat 8 (epoch % 4), [], n % 256 ^ (if s then 2 else 1), pl.length⟩,
        (header s l epoch n pl.length).length, pl) := by
  have hbits : ∀ e < 4, BitVec.ofNat 8 e &&& unifiedEpochMask = BitVec.ofNat 8 e := by decide
  have hhdr := headerBytes_eq_header
    ⟨false, s, l, BitVec.ofNat 8 (epoch % 4), [], n % 256 ^ (if s then 2 else 1), pl.length⟩ epoch n rfl
    (by rw [BitVec.toNat_ofNat]; omega) rfl pl.length
  refine unifiedParse_eq_ok.mpr ⟨rest, ⟨rfl, nofun, ?_, ?_, rfl, hpl, ?_⟩, ?_, ?_⟩
  · exact hbits _ (Nat.mod_lt _ (by decide))
  · exact Nat.mod_lt _ (by positivity)
  · intro hl
    rw [hrest hl]
    exact dvd_zero _
  · rw [hhdr]
  · rw [hhdr]

/-- A record is opened if its number is within half a window of the highest one seen. -/
theorem recordUnprotect_record {u : RecordUnprotection} {s l : Bool} {n k cap : Nat} {content rest : Bytes} {ct : Byte}
    (hhigh : u.highestSeenSequence < 2 ^ 48) (hn : n < 2 ^ 48)
    (hd : seqDist n u.highestSeenSequence < 2 ^ (if s then 15 else 7)) (hct : ct ≠ 0)
    (hlen : content.length + 1 + k ≤ 2048) (hcap : content.length ≤ cap) (hrest : l = false → rest = []) :
    recordUnprotect u (record u.readKey u.readIv u.epoch.toNat n s l content ct k ++ rest) cap =
      .ok (content, ct, sawNumber u n) := by
  generalize hinner : innerPlaintext content ct k = inner
  have hil : inner.length = content.length + 1 + k := by rw [← hinner, length_innerPlaintext]
  generalize hheader : header s l u.epoch.toNat n (inner.length + 16) = hb
  have hbuf : record u.readKey u.readIv u.epoch.toNat n s l content ct k ++ rest =
      hb ++ (payload u.readKey u.readIv n hb inner ++ rest) := by
    rw [record, hinner, hheader, List.append_assoc]
  have hparse := unifiedParse_header s l u.epoch.toNat n (payload u.readKey u.readIv n hb inner) rest
    (by rw [length_payload]; omega) hrest
  rw [length_payload, hheader] at hparse
  -- the bits of the number reconstruct it
  have hnumber : ∀ e cid len, numberOf u ⟨false, s, l, e, cid, n % 256 ^ (if s then 2 else 1), len⟩ = n := by
    intro e cid len
    rw [numberOf]
    dsimp only
    cases s with
    | true => exact reconstructSequenceNumber_mod (.inr rfl) hhigh hn hd
    | false => exact reconstructSequenceNumber_mod (.inl rfl) hhigh hn hd
  have hnonce : buildNonce u.readIv n = nonce u.readIv n := buildNonce_eq u.readIv (hn.trans (by decide))
  rw [hbuf]
  refine recordUnprotect_eq_ok.mpr ⟨_, _, (aeadChacha20Poly1305Encrypt u.readKey (nonce u.readIv n) hb inner).1,
    (aeadChacha20Poly1305Encrypt u.readKey (nonce u.readIv n) hb inner).2, k, hparse, ?_, ?_, ?_, hct, hcap, ?_⟩
  · rw [BitVec.toNat_ofNat]
    omega
  · rw [aeadChacha20Poly1305Encrypt, Aead.length_chacha20Xor]
    omega
  · rw [hnumber, hnonce, List.take_left, hinner]
  · rw [hnumber]

/-- A record is opened to what was sealed in it, by a receiver with the sender's key, IV and epoch
whose highest number is within half a window of the record's. -/
theorem unprotect_sealRecord {p : RecordProtection} {u : RecordUnprotection} {ct : Byte} {pt : Bytes}
    {cap : Nat} (hkey : u.readKey = p.writeKey) (hiv : u.readIv = p.writeIv) (hep : u.epoch = p.epoch)
    (hct : ct ≠ 0) (hpt : pt.length ≤ 2047) (hcap : pt.length ≤ cap) (hseq : p.nextSendSequence < 2 ^ 48)
    (hhigh : u.highestSeenSequence < 2 ^ 48)
    (hd : seqDist p.nextSendSequence u.highestSeenSequence < 2 ^ 15) :
    recordUnprotect u (sealRecord p ct pt) cap =
      .ok (pt, ct, { u with highestSeenSequence := max u.highestSeenSequence p.nextSendSequence }) := by
  rw [sealRecord_eq_record (hseq.trans (by decide)), ← hkey, ← hiv, ← hep, ← List.append_nil (record _ _ _ _ _ _ _ _ _)]
  exact recordUnprotect_record hhigh hseq hd hct (by omega) hcap (fun _ => rfl)

/-- A record of any shape is opened by a receiver with its key, IV and epoch whose highest number is within half a
window of the record's, whatever its padding. -/
theorem unprotect_record (u : RecordUnprotection) (seq16 lengthPresent : Bool) (n padding cap : Nat) (content rest : Bytes)
    (ct : Byte) (hhigh : u.highestSeenSequence < 2 ^ 48) (hn : n < 2 ^ 48)
    (hd : |(n : Int) - u.highestSeenSequence| < 2 ^ (if seq16 then 15 else 7)) (hct : ct ≠ 0)
    (hlen : content.length + 1 + padding ≤ 2048) (hcap : content.length ≤ cap) (hrest : lengthPresent = false → rest = []) :
    recordUnprotect u (record u.readKey u.readIv u.epoch.toNat n seq16 lengthPresent content ct padding ++ rest) cap =
      .ok (content, ct, { u with highestSeenSequence := max u.highestSeenSequence n }) := by
  rw [← seqDist_eq_abs] at hd
  exact recordUnprotect_record hhigh hn (by exact_mod_cast hd) hct hlen hcap hrest

theorem unprotect_record_padded :
    recordUnprotect (recordUnprotectionInit (zeros 32) (zeros 12) 2)
      (record (zeros 32) (zeros 12) 2 100 false false [5, 0] 23 3) 2 =
        .ok ([5, 0], 23, ⟨zeros 32, zeros 12, 100, 2⟩) := by
  have h := unprotect_record (recordUnprotectionInit (zeros 32) (zeros 12) 2) false false 100 3 2 [5, 0] [] 23
    (by decide) (by decide) (by decide) (by decide) (by decide) (by decide) (fun _ => rfl)
  rwa [List.append_nil] at h

/-- Nothing is read outside the record. -/
theorem avoids_recordUnprotect (u : RecordUnprotection) (buf : Bytes) (cap : Nat) :
    Avoids .ub (recordUnprotect u buf cap) := by
  unfold recordUnprotect
  refine (avoids_unifiedParse buf (by decide)).bind ?_
  rintro ⟨hdr, off, pl⟩ -
  refine avoids_failIf_bind (by decide) fun _ => avoids_failIf_bind (by decide) fun h16 =>
    avoids_failIf_bind (by decide) fun _ => ?_
  have hlen : (pl.drop (pl.length - 16)).length = 16 := by rw [List.length_drop]; omega
  have htag : bytesN 16 (pl.drop (pl.length - 16)) = .ok ⟨_, hlen⟩ := bytesN_eq_ok.mpr rfl
  dsimp only
  rw [htag, ok_bind]
  refine (Aead.avoids_decrypt _ _ _ _ _).bind fun inner _ => Avoids.bind ?_ ?_
  · unfold splitInner
    split
    · exact avoids_error (by decide)
    · exact avoids_ok _
  · rintro ⟨content, ct⟩ -
    exact avoids_failIf_bind (by decide) fun _ => avoids_ok _

/-! ## The memory -/

/-- The call with its memory is `recordProtect`, and writes the record and its length. -/
theorem recordProtectInto_eq (ct : Byte) (pt : Bytes) (m : ProtectMem) : recordProtectInto ct pt m =
    returnIfError (recordProtect m.p ct pt m.outBuf.length) m fun r =>
      (.ok (), ⟨r.2, r.1 ++ m.outBuf.drop r.1.length, r.1.length⟩) := by
  unfold recordProtectInto recordProtect
  simp only [returnIfError_bind, pure_eq_ok, returnIfError_ok]
  iterate 3 refine congrArg _ (funext fun _ => ?_)
  generalize hheader : writeFixedShapeHeader (m.p.epoch &&& 3) (m.p.nextSendSequence % 2 ^ 16)
    ((pt ++ [ct]).length + 16) = hb
  have hb5 : hb.length = 5 := by rw [← hheader, writeFixedShapeHeader_eq, length_header]; rfl
  have hfirst : patch m.outBuf 0 hb = hb ++ m.outBuf.drop 5 := by rw [patch, hb5]; rfl
  rw [hfirst, List.take_left' hb5]
  generalize henc : aeadChacha20Poly1305Encrypt m.p.writeKey (buildNonce m.p.writeIv m.p.nextSendSequence) hb
    (pt ++ [ct]) = enc
  have hc : enc.1.length = (pt ++ [ct]).length := by rw [← henc, aeadChacha20Poly1305Encrypt, Aead.length_chacha20Xor]
  have hlen : (hb ++ enc.1 ++ enc.2.1).length = 5 + ((pt ++ [ct]).length + 16) := by
    rw [List.length_append, List.length_append, hb5, hc, enc.2.2, Nat.add_assoc]
  have hsecond : patch (hb ++ m.outBuf.drop 5) 5 enc.1 = hb ++ enc.1 ++ (m.outBuf.drop 5).drop enc.1.length :=
    patch_append hb5
  have hthird : patch (hb ++ enc.1 ++ (m.outBuf.drop 5).drop enc.1.length) (5 + (pt ++ [ct]).length) enc.2.1 =
      hb ++ enc.1 ++ enc.2.1 ++ ((m.outBuf.drop 5).drop enc.1.length).drop enc.2.1.length :=
    patch_append (by rw [List.length_append, hb5, hc])
  have hdrop : ((m.outBuf.drop 5).drop enc.1.length).drop enc.2.1.length = m.outBuf.drop (5 + ((pt ++ [ct]).length + 16)) := by
    rw [List.drop_drop, List.drop_drop, hc, enc.2.2]
  rw [hsecond, hthird, hdrop, hlen]

/-- The writes of `recordUnprotectInto`. -/
theorem unprotect_writes (m : UnprotectMem) (content : Bytes) (ct : Byte) (n : Nat) :
    (let m := { m with plaintextOut := patch m.plaintextOut 0 content }
     let m := if m.u.highestSeenSequence < n then { m with u := { m.u with highestSeenSequence := n } } else m
     { m with plaintextLen := content.length, outContentType := ct }) =
      (⟨sawNumber m.u n, content ++ m.plaintextOut.drop content.length, content.length, ct⟩ : UnprotectMem) := by
  simp only [patch, List.take_zero, List.nil_append, Nat.zero_add, sawNumber]
  split
  · rw [Nat.max_eq_right (by omega)]
  · rw [Nat.max_eq_left (by omega)]

/-- The call with its memory is `recordUnprotect`, and writes its results. -/
theorem recordUnprotectInto_eq (buf : Bytes) (m : UnprotectMem) : recordUnprotectInto buf m =
    returnIfError (recordUnprotect m.u buf m.plaintextOut.length) m fun r =>
      (.ok (), ⟨r.2.2, r.1 ++ m.plaintextOut.drop r.1.length, r.1.length, r.2.1⟩) := by
  unfold recordUnprotectInto recordUnprotect
  simp only [returnIfError_bind, pure_eq_ok, returnIfError_ok]
  -- the same checks in the same order, and the writes after the last
  iterate 8 refine congrArg _ (funext fun _ => ?_)
  exact congrArg _ (unprotect_writes m _ _ _)

/-- A call that fails leaves the receiver and all outputs as they were, and reads nothing outside the record. One that
succeeds has a record of the receiver's epoch before it, whose tag is verified under the nonce of a number with the bits
on the wire and with the bytes of the header; it writes the content and its type, and only the highest number
of the receiver changes. -/
theorem unprotect_authentic (buf : Bytes) (m : UnprotectMem) :
    (∀ st, (recordUnprotectInto buf m).1 = .error st → st ≠ .ub ∧ (recordUnprotectInto buf m).2 = m) ∧
    ((recordUnprotectInto buf m).1 = .ok () →
      ∃ (seq16 lengthPresent : Bool) (wire n padding : Nat) (hdr c rest content : Bytes) (tag : BytesN 16) (ct : Byte),
        wire < 2 ^ (if seq16 then 16 else 8) ∧
        hdr = header seq16 lengthPresent m.u.epoch.toNat wire (c.length + 16) ∧
        buf = hdr ++ (c ++ tag.1) ++ rest ∧
        n % 2 ^ (if seq16 then 16 else 8) = wire ∧
        aeadTag m.u.readKey (nonce m.u.readIv n) hdr c = tag ∧
        aeadChacha20Poly1305Decrypt m.u.readKey (nonce m.u.readIv n) hdr c tag = .ok (innerPlaintext content ct padding) ∧
        (recordUnprotectInto buf m).2 =
          { u := { m.u with highestSeenSequence := max m.u.highestSeenSequence n },
            plaintextOut := content ++ m.plaintextOut.drop content.length,
            plaintextLen := content.length, outContentType := ct }) := by
  rw [recordUnprotectInto_eq]
  refine ⟨?_, ?_⟩
  · intro st h
    obtain ⟨hst, hm⟩ := snd_returnIfError h
    refine ⟨?_, hm⟩
    rintro rfl
    exact avoids_recordUnprotect _ _ _ hst
  · intro h
    cases hopen : recordUnprotect m.u buf m.plaintextOut.length with
    | error st =>
      rw [hopen] at h
      cases h
    | ok r =>
      obtain ⟨content, ct, u'⟩ := r
      obtain ⟨hdr, off, c, tag, k, hparse, hepoch, -, henc, -, -, rfl⟩ := recordUnprotect_eq_ok.mp hopen
      obtain ⟨rest, hfits, hbuf, rfl⟩ := unifiedParse_eq_ok.mp hparse
      have hcid : hdr.cidPresent = false := Bool.eq_false_iff.mpr fun hc => hfits.cid_ne hc rfl
      have hlen : (c ++ tag.1).length = c.length + 16 := by rw [List.length_append, tag.2]
      have hheader := headerBytes_eq_header _ _ _ hcid hepoch (Nat.mod_eq_of_lt hfits.seq).symm (c ++ tag.1).length
      rw [hheader, hlen] at hbuf henc
      rw [hbuf, List.take_left, buildNonce_eq _ (numberOf_lt m.u hdr)] at henc
      have hwire := hfits.wire_lt
      refine ⟨hdr.seqLenIs16bit, hdr.lengthPresent, hdr.sequenceNumber, numberOf m.u hdr, k, _, c, rest, content, tag, ct,
        hwire, rfl, by rw [hbuf]; simp only [List.append_assoc], ?_, ((Aead.encrypt_eq_iff _ _ _ _ _ _).mp henc).2,
        (Aead.decrypt_eq_ok_iff _ _ _ _ _ _).mpr henc, rfl⟩
      rw [numberOf, reconstructSequenceNumber_congr (by split <;> simp), Nat.mod_eq_of_lt hwire]

theorem unprotect_authentic_padded : ∃ n,
    (recordUnprotectInto (record (zeros 32) (zeros 12) 2 100 false false [5, 0] 23 3)
      ⟨recordUnprotectionInit (zeros 32) (zeros 12) 2, [1, 1, 1], 0, 0⟩).2.u = ⟨zeros 32, zeros 12, n, 2⟩ := by
  have hopen : recordUnprotect (recordUnprotectionInit (zeros 32) (zeros 12) 2)
      (record (zeros 32) (zeros 12) 2 100 false false [5, 0] 23 3 ++ []) 3 = .ok ([5, 0], 23, _) :=
    recordUnprotect_record (by decide) (by decide) (by decide) (by decide) (by decide) (by decide) (fun _ => rfl)
  rw [List.append_nil] at hopen
  have hok : (recordUnprotectInto (record (zeros 32) (zeros 12) 2 100 false false [5, 0] 23 3)
      ⟨recordUnprotectionInit (zeros 32) (zeros 12) 2, [1, 1, 1], 0, 0⟩).1 = .ok () := by
    rw [recordUnprotectInto_eq, show ([1, 1, 1] : Bytes).length = 3 from rfl, hopen]
    rfl
  obtain ⟨_, _, _, n, _, _, _, _, _, _, _, -, -, -, -, -, -, hmem⟩ := (unprotect_authentic _ _).2 hok
  exact ⟨_, by rw [hmem]; rfl⟩

end ND.Proof.Record
