import NanoDtls.Impl.Record

/-!
# The unified header

`headerBytes` are the bytes of a header. The serializer writes them and the
payload (`unifiedSerialize_eq_ok`), and the parser accepts exactly the
strings that begin with them, for a header whose fields fit (`Fits`), and
go on with the payload (`unifiedParse_eq_ok`). So each undoes the other
(`unified_codec`), as long as a payload without a length field is shorter than
`2^16` bytes: the parser keeps 16 bits of its length (`implicit_length_iff`).
-/

namespace ND.Proof.Record

open ND.Impl ND.Impl.Record

/-! ## Reading slices -/

theorem readSlice_append {buf : Bytes} {off n : Nat} (a b c : Bytes) (h : buf = a ++ (b ++ c))
    (ha : a.length = off) (hb : b.length = n) : readSlice buf off n = .ok b := by
  subst h ha hb
  rw [readSlice, if_pos (by simp only [List.length_append]; omega), List.drop_left, List.take_left]

theorem readSlice_eq_ok {buf b : Bytes} {off n : Nat} :
    readSlice buf off n = .ok b ↔ off + n ≤ buf.length ∧ (buf.drop off).take n = b := by
  unfold readSlice
  split <;> simp_all

theorem length_of_readSlice {buf b : Bytes} {off n : Nat} (h : readSlice buf off n = .ok b) : b.length = n := by
  obtain ⟨hle, rfl⟩ := readSlice_eq_ok.mp h
  rw [List.length_take, List.length_drop]
  omega

/-- What is left at an offset is the slice read there and what is left after it. -/
theorem drop_of_readSlice {buf b : Bytes} {off n : Nat} (h : readSlice buf off n = .ok b) :
    buf.drop off = b ++ buf.drop (off + n) := by
  obtain ⟨-, rfl⟩ := readSlice_eq_ok.mp h
  rw [← List.drop_drop, List.take_append_drop]

theorem eq_cons_of_readAt {buf : Bytes} {b : Byte} (h : readAt buf 0 = .ok b) : buf = [b] ++ buf.drop 1 := by
  cases buf with
  | nil => cases h
  | cons a l =>
    cases h
    rfl

/-- `rest` is what a buffer holds from `off` on. -/
structure From (buf : Bytes) (off : Nat) (rest : Bytes) : Prop where
  le : off ≤ buf.length
  drop_eq : buf.drop off = rest

theorem from_zero (buf : Bytes) : From buf 0 buf := ⟨Nat.zero_le _, rfl⟩

section From

variable {buf data rest : Bytes} {off n v : Nat} {b : Byte}

theorem From.length_eq (h : From buf off rest) : buf.length = off + rest.length := by
  have hle := h.le
  rw [← h.drop_eq, List.length_drop]
  omega

theorem From.next (h : From buf off (data ++ rest)) (hn : data.length = n) : From buf (off + n) rest := by
  have hlen := h.length_eq
  rw [List.length_append] at hlen
  refine ⟨by omega, ?_⟩
  rw [← List.drop_drop, h.drop_eq, List.drop_left' hn]

theorem From.byte (h : From buf off ([b] ++ rest)) : readAt buf off = .ok b ∧ From buf (off + 1) rest := by
  have hb : buf[off]? = some b := by rw [← Nat.add_zero off, ← List.getElem?_drop, h.drop_eq]; rfl
  exact ⟨by rw [readAt, hb], h.next rfl⟩

theorem From.slice (h : From buf off (data ++ rest)) (hn : data.length = n) : readSlice buf off n = .ok data := by
  have hlen := h.length_eq
  rw [List.length_append] at hlen
  rw [readSlice, if_pos (by omega), h.drop_eq, List.take_left' hn]

theorem From.uint (h : From buf off (beBytes n v ++ rest)) (hv : v < 256 ^ n) :
    (beNat <$> readSlice buf off n) = .ok v ∧ From buf (off + n) rest := by
  refine ⟨?_, h.next (length_beBytes n v)⟩
  rw [h.slice (length_beBytes n v), map_ok, beNat_beBytes, Nat.mod_eq_of_lt hv]

theorem From.of_byte (h : From buf off rest) (hb : readAt buf off = .ok b) :
    ∃ rest', rest = [b] ++ rest' ∧ From buf (off + 1) rest' := by
  have hget : rest[0]? = some b := by
    rw [← h.drop_eq, List.getElem?_drop, Nat.add_zero]
    unfold readAt at hb
    split at hb
    · rename_i hsome
      cases hb
      exact hsome
    · cases hb
  cases rest with
  | nil => cases hget
  | cons a l =>
    cases hget
    exact ⟨l, rfl, h.next (show [b].length = 1 from rfl)⟩

theorem From.of_slice (h : From buf off rest) (hs : readSlice buf off n = .ok data) :
    ∃ rest', rest = data ++ rest' ∧ data.length = n ∧ From buf (off + n) rest' := by
  have hrest := drop_of_readSlice hs
  rw [h.drop_eq] at hrest
  exact ⟨_, hrest, length_of_readSlice hs, (readSlice_eq_ok.mp hs).1, rfl⟩

theorem From.of_uint (h : From buf off rest) (hu : (beNat <$> readSlice buf off n) = .ok v) :
    ∃ rest', rest = beBytes n v ++ rest' ∧ v < 256 ^ n ∧ From buf (off + n) rest' := by
  obtain ⟨data, hs, rfl⟩ := map_eq_ok.mp hu
  obtain ⟨rest', rfl, rfl, h'⟩ := h.of_slice hs
  exact ⟨rest', by rw [beBytes_beNat], beNat_lt data, h'⟩

end From

theorem bytesN_eq {n : Nat} (b : BytesN n) : bytesN n b.1 = .ok b := by
  rw [bytesN, dif_pos b.2]

theorem bytesN_eq_ok {n : Nat} {l : Bytes} {b : BytesN n} : bytesN n l = .ok b ↔ l = b.1 := by
  constructor
  · intro h
    unfold bytesN at h
    split at h
    · cases h
      rfl
    · cases h
  · rintro rfl
    exact bytesN_eq b

theorem szAdd_le (a b : Nat) : szAdd a b ≤ a + b := Nat.mod_le _ _

/-! ## The first byte -/

/-- Only the two low bits of the epoch count. -/
theorem unifiedByte0_mask (c s l : Bool) (e : Byte) :
    unifiedByte0 c s l (e &&& unifiedEpochMask) = unifiedByte0 c s l e := by
  rw [unifiedByte0, unifiedByte0, BitVec.and_assoc, BitVec.and_self]

theorem epoch_mem : ∀ e : Byte, e &&& unifiedEpochMask ∈ ([0, 1, 2, 3] : List Byte) := by
  decide +kernel

/-- Each field of the first byte is read back. -/
theorem unifiedByte0_bits : ∀ (c s l : Bool), ∀ e ∈ ([0, 1, 2, 3] : List Byte),
    unifiedByte0 c s l e &&& unifiedFixedBitsMask = unifiedFixedBitsVal ∧
      (unifiedByte0 c s l e &&& unifiedCidBit != 0) = c ∧ (unifiedByte0 c s l e &&& unifiedSeqlenBit != 0) = s ∧
      (unifiedByte0 c s l e &&& unifiedLenBit != 0) = l ∧ unifiedByte0 c s l e &&& unifiedEpochMask = e := by
  decide +kernel

theorem unifiedByte0_read_back (c s l : Bool) (e : Byte) :
    unifiedByte0 c s l e &&& unifiedFixedBitsMask = unifiedFixedBitsVal ∧
      (unifiedByte0 c s l e &&& unifiedCidBit != 0) = c ∧ (unifiedByte0 c s l e &&& unifiedSeqlenBit != 0) = s ∧
      (unifiedByte0 c s l e &&& unifiedLenBit != 0) = l ∧
      unifiedByte0 c s l e &&& unifiedEpochMask = e &&& unifiedEpochMask := by
  rw [← unifiedByte0_mask]
  exact unifiedByte0_bits c s l _ (epoch_mem e)

/-- A byte with the fixed bits is the first byte of the header it is read as. -/
theorem unifiedByte0_read : ∀ b : Byte, b &&& unifiedFixedBitsMask = unifiedFixedBitsVal →
    unifiedByte0 (b &&& unifiedCidBit != 0) (b &&& unifiedSeqlenBit != 0) (b &&& unifiedLenBit != 0)
      (b &&& unifiedEpochMask) = b := by
  decide +kernel

/-! ## Headers as bytes -/

/-- The number of bytes of the connection ID, of the sequence number and of the length. -/
def cidSize (hdr : UnifiedHdr) (cidLen : Nat) : Nat := if hdr.cidPresent then cidLen else 0
def seqSize (hdr : UnifiedHdr) : Nat := if hdr.seqLenIs16bit then 2 else 1
def lenSize (hdr : UnifiedHdr) : Nat := if hdr.lengthPresent then 2 else 0

/-- The bytes of a header before a payload of `len` bytes. -/
def headerBytes (hdr : UnifiedHdr) (len : Nat) : Bytes :=
  [unifiedByte0 hdr.cidPresent hdr.seqLenIs16bit hdr.lengthPresent hdr.epochLow2] ++
    (if hdr.cidPresent then hdr.cid else []) ++ beBytes (seqSize hdr) hdr.sequenceNumber ++
    if hdr.lengthPresent then beBytes 2 len else []

theorem headerBytes_eq (hdr : UnifiedHdr) (len : Nat) : headerBytes hdr len =
    [unifiedByte0 hdr.cidPresent hdr.seqLenIs16bit hdr.lengthPresent hdr.epochLow2] ++
      ((if hdr.cidPresent then hdr.cid else []) ++ (beBytes (seqSize hdr) hdr.sequenceNumber ++
        beBytes (lenSize hdr) len)) := by
  rw [headerBytes, lenSize, List.append_assoc, List.append_assoc]
  cases hdr.lengthPresent <;> rfl

theorem length_headerBytes (hdr : UnifiedHdr) (len : Nat) :
    (headerBytes hdr len).length = 1 + cidSize hdr hdr.cid.length + seqSize hdr + lenSize hdr := by
  rw [headerBytes_eq]
  simp only [List.length_append, List.length_singleton, length_beBytes, cidSize]
  cases hdr.cidPresent <;> simp <;> omega

/-- The serializer writes the header and the payload, if the fields are consistent and the buffer holds them. -/
theorem unifiedSerialize_eq_ok {hdr : UnifiedHdr} {payload out : Bytes} {cap : Nat} :
    unifiedSerialize hdr payload cap = .ok out ↔
      (hdr.cidPresent = true → hdr.cid ≠ []) ∧ (hdr.seqLenIs16bit = false → hdr.sequenceNumber ≤ 0xFF) ∧
        (hdr.lengthPresent = true → payload.length ≤ 0xFFFF) ∧ out.length ≤ cap ∧
        out = headerBytes hdr payload.length ++ payload := by
  -- the size the code computes is at most that of what it writes
  have htotal : szAdd (szAdd (szAdd (szAdd 1 (cidSize hdr hdr.cid.length)) (seqSize hdr)) (lenSize hdr)) payload.length ≤
      (headerBytes hdr payload.length ++ payload).length := by
    rw [List.length_append, length_headerBytes]
    have h1 := szAdd_le 1 (cidSize hdr hdr.cid.length)
    have h2 := szAdd_le (szAdd 1 (cidSize hdr hdr.cid.length)) (seqSize hdr)
    have h3 := szAdd_le (szAdd (szAdd 1 (cidSize hdr hdr.cid.length)) (seqSize hdr)) (lenSize hdr)
    have h4 := szAdd_le (szAdd (szAdd (szAdd 1 (cidSize hdr hdr.cid.length)) (seqSize hdr)) (lenSize hdr)) payload.length
    omega
  unfold unifiedSerialize
  simp only [failIf_bind_eq_ok, pure_eq_ok, Except.ok.injEq, List.length_eq_zero_iff, not_and, Nat.not_lt,
    Bool.not_eq_true]
  rw [show [unifiedByte0 hdr.cidPresent hdr.seqLenIs16bit hdr.lengthPresent hdr.epochLow2] ++
    (if hdr.cidPresent then hdr.cid else []) ++ beBytes (if hdr.seqLenIs16bit then 2 else 1) hdr.sequenceNumber ++
    (if hdr.lengthPresent then beBytes 2 payload.length else []) ++ payload =
      headerBytes hdr payload.length ++ payload from rfl]
  constructor
  · rintro ⟨hcid, hseq, hlen, -, hfit, rfl⟩
    exact ⟨hcid, hseq, hlen, hfit, rfl⟩
  · rintro ⟨hcid, hseq, hlen, hfit, rfl⟩
    exact ⟨hcid, hseq, hlen, htotal.trans hfit, hfit, rfl⟩

/-- The fields of a header are those of bytes that a parser with connection IDs of `cidLen` bytes reads before
this payload and this rest of the datagram. -/
structure Fits (hdr : UnifiedHdr) (cidLen : Nat) (payload rest : Bytes) : Prop where
  cid : hdr.cid.length = cidSize hdr cidLen
  cid_ne : hdr.cidPresent = true → cidLen ≠ 0
  epoch : hdr.epochLow2 &&& unifiedEpochMask = hdr.epochLow2
  seq : hdr.sequenceNumber < 256 ^ seqSize hdr
  length : hdr.length = payload.length
  short : payload.length < 2 ^ 16
  -- without a length field, the 16 bits of the length lose multiples of `2^16`
  rest : hdr.lengthPresent = false → 2 ^ 16 ∣ rest.length

variable {hdr : UnifiedHdr} {cidLen off : Nat} {payload rest buf : Bytes}

theorem Fits.length_headerBytes (h : Fits hdr cidLen payload rest) :
    (headerBytes hdr payload.length).length = 1 + cidSize hdr cidLen + seqSize hdr + lenSize hdr := by
  rw [Record.length_headerBytes]
  have := h.cid
  unfold cidSize at this ⊢
  split at this <;> simp_all

theorem Fits.cid_bytes (h : Fits hdr cidLen payload rest) : (if hdr.cidPresent then hdr.cid else []) = hdr.cid := by
  have hcid := h.cid
  unfold cidSize at hcid
  split at hcid
  · rw [if_pos (by assumption)]
  · rw [if_neg (by assumption), List.length_eq_zero_iff.mp hcid]

theorem Fits.wire_lt (h : Fits hdr cidLen payload rest) :
    hdr.sequenceNumber < 2 ^ (if hdr.seqLenIs16bit then 16 else 8) := by
  have hseq := h.seq
  unfold seqSize at hseq
  split at hseq
  · rw [if_pos (by assumption)]
    exact hseq
  · rw [if_neg (by assumption)]
    exact hseq

/-- The size of the header that the parser checks the buffer against. -/
theorem need_le (n k m : Nat) : szAdd (szAdd (szAdd 1 n) k) m ≤ 1 + n + k + m := by
  have h1 := szAdd_le 1 n
  have h2 := szAdd_le (szAdd 1 n) k
  have h3 := szAdd_le (szAdd (szAdd 1 n) k) m
  omega

/-- The parser reads a header back from its bytes. -/
theorem Fits.unifiedParse (h : Fits hdr cidLen payload rest) :
    unifiedParse (headerBytes hdr payload.length ++ (payload ++ rest)) cidLen =
      .ok (hdr, (headerBytes hdr payload.length).length, payload) := by
  rw [h.length_headerBytes, headerBytes_eq, h.cid_bytes]
  set n := cidSize hdr cidLen with hn
  set k := seqSize hdr with hk
  set m := lenSize hdr with hm
  set b0 := unifiedByte0 hdr.cidPresent hdr.seqLenIs16bit hdr.lengthPresent hdr.epochLow2 with hb0
  set buf := [b0] ++ (hdr.cid ++ (beBytes k hdr.sequenceNumber ++ beBytes m payload.length)) ++ (payload ++ rest) with hbuf
  have hcid : hdr.cid.length = n := h.cid
  have hlen : buf.length = 1 + n + k + m + payload.length + rest.length := by
    simp only [hbuf, List.length_append, List.length_singleton, hcid, length_beBytes]; omega
  have h0 : readAt buf 0 = .ok b0 := rfl
  have h1 : readSlice buf 1 n = .ok hdr.cid :=
    readSlice_append [b0] _ (beBytes k hdr.sequenceNumber ++ beBytes m payload.length ++ (payload ++ rest))
      (by simp only [hbuf, List.append_assoc]) rfl hcid
  have h2 : readSlice buf (1 + n) k = .ok (beBytes k hdr.sequenceNumber) :=
    readSlice_append ([b0] ++ hdr.cid) _ (beBytes m payload.length ++ (payload ++ rest))
      (by simp only [hbuf, List.append_assoc]) (by simp [hcid]; omega) (length_beBytes _ _)
  have h3 : readSlice buf (1 + n + k) m = .ok (beBytes m payload.length) :=
    readSlice_append ([b0] ++ hdr.cid ++ beBytes k hdr.sequenceNumber) _ (payload ++ rest)
      (by simp only [hbuf, List.append_assoc]) (by simp [hcid]; omega) (length_beBytes _ _)
  have h4 : readSlice buf (1 + n + k + m) payload.length = .ok payload :=
    readSlice_append ([b0] ++ hdr.cid ++ beBytes k hdr.sequenceNumber ++ beBytes m payload.length) _ rest
      (by simp only [hbuf, List.append_assoc]) (by simp [hcid]; omega) rfl
  -- the length field, or what is left of the datagram
  have h5 : (if hdr.lengthPresent then payload.length % 256 ^ m else (buf.length - (1 + n + k + m)) % 2 ^ 16) =
      payload.length := by
    have hshort := h.short
    have hrest := h.rest
    cases hl : hdr.lengthPresent with
    | true =>
      rw [if_pos rfl, hm, lenSize, hl, if_pos rfl]
      exact Nat.mod_eq_of_lt hshort
    | false =>
      have := hrest hl
      rw [if_neg (by simp), hlen]
      omega
  have h6 : hdr.sequenceNumber % 256 ^ k = hdr.sequenceNumber := Nat.mod_eq_of_lt h.seq
  have hneed := need_le n k m
  unfold Impl.Record.unifiedParse
  obtain ⟨hfixed, hcid, hseq, hlen, hepoch⟩ :=
    unifiedByte0_read_back hdr.cidPresent hdr.seqLenIs16bit hdr.lengthPresent hdr.epochLow2
  simp only [h0, ok_bind, hb0, hfixed, hcid, hseq, hlen, hepoch]
  simp only [← cidSize.eq_1, ← seqSize.eq_1, ← lenSize.eq_1, ← hn, ← hk, ← hm, h1, h2, h3, ok_bind, map_ok, beNat_beBytes,
    h5, h4, h6, h.epoch]
  rw [failIf_bind (by omega), failIf_bind (by simp), failIf_bind (fun hc => h.cid_ne hc.1 hc.2),
    failIf_bind (by omega), failIf_bind (by omega), ← h.length]
  rfl

/-- What the parser accepts are the bytes of the header it returns, the payload and a rest. -/
theorem fits_of_unifiedParse (h : unifiedParse buf cidLen = .ok (hdr, off, payload)) :
    ∃ rest, Fits hdr cidLen payload rest ∧ buf = headerBytes hdr payload.length ++ (payload ++ rest) ∧
      off = (headerBytes hdr payload.length).length := by
  unfold unifiedParse at h
  simp only [bind_eq_ok, failIf_eq_ok, exists_const, map_eq_ok, pure_eq_ok, Except.ok.injEq, Prod.mk.injEq] at h
  obtain ⟨-, b0, hb0, hfixed, hcidLen, -, cid, hcid, seq, ⟨sb, hsb, rfl⟩, len, ⟨lb, hlb, rfl⟩, -, pl, hpl, hhdr, hoff,
    rfl⟩ := h
  have hc : (b0 &&& unifiedCidBit != 0) = hdr.cidPresent := by rw [← hhdr]
  have hs : (b0 &&& unifiedSeqlenBit != 0) = hdr.seqLenIs16bit := by rw [← hhdr]
  have hl : (b0 &&& unifiedLenBit != 0) = hdr.lengthPresent := by rw [← hhdr]
  simp only [hc, hs, hl] at hcid hsb hlb hpl hoff hcidLen hhdr
  simp only [← cidSize.eq_1, ← seqSize.eq_1, ← lenSize.eq_1] at hcid hsb hlb hpl hhdr hoff
  rw [hoff] at hpl hhdr
  have hplen := length_of_readSlice hpl
  have hpoff := (readSlice_eq_ok.mp hpl).1
  rw [← hplen] at hpl hpoff hhdr
  have hcb : hdr.cid = cid := by rw [← hhdr]
  have hseq : hdr.sequenceNumber = beNat sb := by rw [← hhdr]
  have hlseq := length_of_readSlice hsb
  have hfits : Fits hdr cidLen pl (buf.drop (off + pl.length)) := by
    refine ⟨?_, ?_, ?_, ?_, ?_, ?_, ?_⟩
    · rw [hcb, length_of_readSlice hcid]
    · exact fun hp h0 => hcidLen ⟨hp, h0⟩
    · rw [← hhdr]
      simp only [BitVec.and_assoc, BitVec.and_self]
    · rw [hseq, ← hlseq]
      exact beNat_lt sb
    · rw [← hhdr]
    · rw [hplen]
      split
      · have hlt := beNat_lt lb
        rwa [length_of_readSlice hlb, lenSize, if_pos (by assumption)] at hlt
      · exact Nat.mod_lt _ (by decide)
    · intro hno
      rw [if_neg (by simp [hno])] at hplen
      rw [List.length_drop]
      omega
  -- the bytes of the length field, if there is one, are those of the length of the payload
  have hlbytes : beBytes (lenSize hdr) pl.length = lb := by
    have hll := length_of_readSlice hlb
    rw [← hll]
    by_cases hp : hdr.lengthPresent = true
    · rw [hplen, if_pos hp, beBytes_beNat]
    · rw [lenSize, if_neg hp] at hll
      rw [List.length_eq_zero_iff.mp hll]
      rfl
  have hb0' : unifiedByte0 hdr.cidPresent hdr.seqLenIs16bit hdr.lengthPresent hdr.epochLow2 = b0 := by
    have he : hdr.epochLow2 = b0 &&& unifiedEpochMask := by rw [← hhdr]
    rw [he, ← hc, ← hs, ← hl, unifiedByte0_read b0 (not_not.mp hfixed)]
  refine ⟨_, hfits, ?_, by rw [hfits.length_headerBytes, hoff]⟩
  calc buf = [b0] ++ buf.drop 1 := eq_cons_of_readAt hb0
    _ = [b0] ++ (cid ++ (sb ++ (lb ++ (pl ++ buf.drop (off + pl.length))))) := by
      rw [drop_of_readSlice hcid, drop_of_readSlice hsb, drop_of_readSlice hlb, hoff, drop_of_readSlice hpl]
    _ = headerBytes hdr pl.length ++ (pl ++ buf.drop (off + pl.length)) := by
      rw [headerBytes_eq, hb0', hfits.cid_bytes, hcb, hseq, ← hlseq, beBytes_beNat, hlbytes]
      simp only [List.append_assoc]

/-- The parser accepts the bytes of a header and a payload, and what may follow them. -/
theorem unifiedParse_eq_ok : unifiedParse buf cidLen = .ok (hdr, off, payload) ↔
    ∃ rest, Fits hdr cidLen payload rest ∧ buf = headerBytes hdr payload.length ++ (payload ++ rest) ∧
      off = (headerBytes hdr payload.length).length := by
  constructor
  · exact fits_of_unifiedParse
  · rintro ⟨rest, hfits, rfl, rfl⟩
    exact hfits.unifiedParse

/-- The parser reads inside the buffer. -/
theorem avoids_unifiedParse (buf : Bytes) (hcidLen : cidLen < 2 ^ 63) : Avoids .ub (unifiedParse buf cidLen) := by
  unfold unifiedParse
  refine avoids_failIf_bind (by decide) fun hne => ?_
  obtain ⟨b0, hb0⟩ : ∃ b0, readAt buf 0 = .ok b0 := by
    cases buf with
    | nil => exact absurd Nat.zero_lt_one hne
    | cons b l => exact ⟨b, rfl⟩
  rw [hb0, ok_bind]
  dsimp only
  refine avoids_failIf_bind (by decide) fun _ => avoids_failIf_bind (by decide) fun _ => ?_
  generalize hn : (if (b0 &&& unifiedCidBit != 0) = true then cidLen else 0) = n
  generalize hk : (if (b0 &&& unifiedSeqlenBit != 0) = true then 2 else 1) = k
  generalize hm : (if (b0 &&& unifiedLenBit != 0) = true then 2 else 0) = m
  have hsizes : n < 2 ^ 63 ∧ k ≤ 2 ∧ m ≤ 2 := by
    refine ⟨?_, ?_, ?_⟩
    · rw [← hn]; split <;> omega
    · rw [← hk]; split <;> omega
    · rw [← hm]; split <;> omega
  have hneed : szAdd (szAdd (szAdd 1 n) k) m = 1 + n + k + m := by
    rw [szAdd_eq (a := 1) (by omega), szAdd_eq (a := 1 + n) (by omega), szAdd_eq (by omega)]
  rw [hneed]
  refine avoids_failIf_bind (by decide) fun hfit => ?_
  rw [readSlice_eq_ok.mpr ⟨by omega, rfl⟩, readSlice_eq_ok.mpr ⟨by omega, rfl⟩, readSlice_eq_ok.mpr ⟨by omega, rfl⟩]
  simp only [ok_bind, map_ok]
  refine avoids_failIf_bind (by decide) fun hlen => ?_
  rw [readSlice_eq_ok.mpr ⟨?_, rfl⟩, ok_bind]
  · exact avoids_ok _
  · have hle := Nat.mod_le (buf.length - (1 + n + k + m)) (2 ^ 16)
    split
    · rename_i hp
      have := Nat.not_lt.mp fun h => hlen ⟨hp, h⟩
      rw [if_pos hp] at this
      omega
    · omega

/-! ## The codec -/

/-- The header that is read back from what the serializer writes. -/
def readBack (hdr : UnifiedHdr) (payload : Bytes) : UnifiedHdr :=
  { hdr with epochLow2 := hdr.epochLow2 &&& unifiedEpochMask, cid := if hdr.cidPresent then hdr.cid else [],
             length := payload.length }

theorem headerBytes_readBack (hdr : UnifiedHdr) (payload : Bytes) (len : Nat) :
    headerBytes (readBack hdr payload) len = headerBytes hdr len := by
  obtain ⟨c, s, l, e, cid, seq, n⟩ := hdr
  simp only [headerBytes, readBack, seqSize, unifiedByte0_mask]
  cases c <;> rfl

theorem unifiedParse_serialize {out : Bytes} {cap : Nat} (hseq : hdr.sequenceNumber < 2 ^ 16)
    (hpay : payload.length ≤ 65535) (h : unifiedSerialize hdr payload cap = .ok out) :
    unifiedParse out hdr.cid.length =
      .ok (readBack hdr payload, (headerBytes hdr payload.length).length, payload) := by
  obtain ⟨hcid, hseq8, -, -, rfl⟩ := unifiedSerialize_eq_ok.mp h
  refine unifiedParse_eq_ok.mpr ⟨[], ⟨?_, ?_, ?_, ?_, rfl, by omega, fun _ => dvd_zero _⟩, ?_, ?_⟩
  · rw [cidSize, readBack]
    dsimp only
    split <;> rfl
  · exact fun hp => mt List.length_eq_zero_iff.mp (hcid hp)
  · rw [readBack, BitVec.and_assoc, BitVec.and_self]
  · show hdr.sequenceNumber < 256 ^ seqSize hdr
    rw [seqSize]
    split
    · exact hseq
    · exact Nat.lt_succ_of_le (hseq8 (by simpa using ‹¬ hdr.seqLenIs16bit = true›))
  · rw [headerBytes_readBack, List.append_nil]
  · rw [headerBytes_readBack]

theorem unifiedSerialize_parse (hbuf : buf.length ≤ 65535) (h : unifiedParse buf cidLen = .ok (hdr, off, payload)) :
    off + payload.length ≤ buf.length ∧ (hdr.lengthPresent = false → off + payload.length = buf.length) ∧
      ∀ cap, off + payload.length ≤ cap → unifiedSerialize hdr payload cap = .ok (buf.take (off + payload.length)) := by
  obtain ⟨rest, hfits, rfl, rfl⟩ := unifiedParse_eq_ok.mp h
  rw [List.length_append, List.length_append] at hbuf
  have htake : (headerBytes hdr payload.length ++ (payload ++ rest)).take
      ((headerBytes hdr payload.length).length + payload.length) = headerBytes hdr payload.length ++ payload := by
    rw [← List.append_assoc, List.take_left' (List.length_append)]
  refine ⟨by simp only [List.length_append]; omega, ?_, ?_⟩
  · intro hno
    have hrest := hfits.rest hno
    rw [List.length_append, List.length_append]
    omega
  · intro cap hcap
    rw [htake]
    refine unifiedSerialize_eq_ok.mpr ⟨?_, ?_, ?_, by rwa [List.length_append], rfl⟩
    · intro hp hnil
      have hcid := hfits.cid
      rw [hnil, cidSize, if_pos hp] at hcid
      exact hfits.cid_ne hp hcid.symm
    · intro h8
      have hseq := hfits.seq
      rw [seqSize, if_neg (by simp [h8])] at hseq
      omega
    · intro _
      omega

/-- Serializing and parsing undo each other: what the serializer accepts is parsed back, and what the parser
accepts is written again byte for byte. -/
theorem unified_codec :
    (∀ (hdr : UnifiedHdr) (payload out : Bytes) (cap : Nat), hdr.sequenceNumber < 2 ^ 16 → payload.length ≤ 65535 →
      unifiedSerialize hdr payload cap = .ok out →
      ∃ off, unifiedParse out hdr.cid.length =
        .ok ({ hdr with epochLow2 := hdr.epochLow2 &&& 3, cid := if hdr.cidPresent then hdr.cid else [],
                        length := payload.length }, off, payload)) ∧
    (∀ (buf payload : Bytes) (cidLen off : Nat) (hdr : UnifiedHdr), buf.length ≤ 65535 → cidLen ≤ 255 →
      unifiedParse buf cidLen = .ok (hdr, off, payload) →
      off + payload.length ≤ buf.length ∧ (hdr.lengthPresent = false → off + payload.length = buf.length) ∧
        ∀ cap, off + payload.length ≤ cap →
          unifiedSerialize hdr payload cap = .ok (buf.take (off + payload.length))) := by
  refine ⟨?_, ?_⟩
  · intro hdr payload out cap hseq hpay h
    exact ⟨_, unifiedParse_serialize hseq hpay h⟩
  · intro buf payload cidLen off hdr hbuf _ h
    exact unifiedSerialize_parse hbuf h

theorem unified_codec_sample :
    ∃ off, unifiedParse [0x3b, 0xaa, 0xbb, 0x00, 0x07, 0x2a] 2 =
      .ok (⟨true, true, false, 3, [0xaa, 0xbb], 7, 1⟩, off, [0x2a]) :=
  unified_codec.1 ⟨true, true, false, 7, [0xaa, 0xbb], 7, 0⟩ [0x2a] [0x3b, 0xaa, 0xbb, 0x00, 0x07, 0x2a] 6 (by decide)
    (by decide) (by decide)

/-! ## Records without a length field -/

/-- The size of a header without a length field, from its first byte. -/
def implicitHeaderLen (b0 : Byte) (cidLen : Nat) : Nat :=
  1 + (if b0 &&& unifiedCidBit != 0 then cidLen else 0) + if b0 &&& unifiedSeqlenBit != 0 then 2 else 1

/-- The header of a datagram that is parsed has the bits of its first byte. -/
theorem bits_of_unifiedParse {b0 : Byte} {tail : Bytes} (h : unifiedParse (b0 :: tail) cidLen = .ok (hdr, off, payload)) :
    (b0 &&& unifiedCidBit != 0) = hdr.cidPresent ∧ (b0 &&& unifiedSeqlenBit != 0) = hdr.seqLenIs16bit ∧
      (b0 &&& unifiedLenBit != 0) = hdr.lengthPresent := by
  obtain ⟨rest, -, hbuf, -⟩ := fits_of_unifiedParse h
  rw [headerBytes_eq, List.append_assoc, List.singleton_append, List.cons.injEq] at hbuf
  obtain ⟨-, hcid, hseq, hlen, -⟩ :=
    unifiedByte0_read_back hdr.cidPresent hdr.seqLenIs16bit hdr.lengthPresent hdr.epochLow2
  rw [hbuf.1]
  exact ⟨hcid, hseq, hlen⟩

/-- Without a length field the payload is the rest of the datagram if the length of that fits 16 bits. -/
theorem implicit_payload_iff (hno : hdr.lengthPresent = false) (h : unifiedParse buf cidLen = .ok (hdr, off, payload)) :
    payload = buf.drop off ↔ buf.length < off + 2 ^ 16 := by
  obtain ⟨rest, hfits, rfl, rfl⟩ := fits_of_unifiedParse h
  have hshort := hfits.short
  obtain ⟨k, hk⟩ := hfits.rest hno
  rw [List.drop_left, List.self_eq_append_right, ← List.length_eq_zero_iff, List.length_append, List.length_append]
  omega

/-- A datagram whose first byte has the length bit clear and that is parsed: the payload is all that follows the
header if and only if that is less than `2^16` bytes. A payload that is serialized without a length field is
returned unchanged under the same condition. -/
theorem implicit_length_iff (cidLen : Nat) :
    (∀ (b0 : Byte) (tail : Bytes) (off : Nat) (hdr : UnifiedHdr) (payload : Bytes),
      b0 &&& unifiedLenBit = 0 → unifiedParse (b0 :: tail) cidLen = .ok (hdr, off, payload) →
      (payload = (b0 :: tail).drop (implicitHeaderLen b0 cidLen) ↔
        (b0 :: tail).length < implicitHeaderLen b0 cidLen + 2 ^ 16)) ∧
    (∀ (hdr : UnifiedHdr) (payload out : Bytes) (cap : Nat), hdr.cid.length = cidLen → hdr.sequenceNumber < 2 ^ 16 →
      hdr.lengthPresent = false → unifiedSerialize hdr payload cap = .ok out →
      ((∃ hdr' off, unifiedParse out cidLen = .ok (hdr', off, payload)) ↔ payload.length < 2 ^ 16)) := by
  refine ⟨?_, ?_⟩
  · intro b0 tail off hdr payload hbit h
    obtain ⟨hcid, hseq, hlen⟩ := bits_of_unifiedParse h
    have hno : hdr.lengthPresent = false := by rw [← hlen, hbit]; rfl
    obtain ⟨rest, hfits, -, hoff⟩ := fits_of_unifiedParse h
    have hsize : off = implicitHeaderLen b0 cidLen := by
      rw [hoff, hfits.length_headerBytes, implicitHeaderLen, hcid, hseq, lenSize, hno]
      rfl
    rw [← hsize]
    exact implicit_payload_iff hno h
  · rintro hdr payload out cap rfl hseq - h
    constructor
    · rintro ⟨hdr', off, hparse⟩
      obtain ⟨_, hfits, -, -⟩ := fits_of_unifiedParse hparse
      exact hfits.short
    · intro hshort
      exact ⟨_, _, unifiedParse_serialize hseq (by omega) h⟩

theorem implicit_length_iff_sample :
    ∃ hdr' off, unifiedParse [0x3b, 0xaa, 0xbb, 0x00, 0x07, 0x2a] 2 = .ok (hdr', off, [0x2a]) :=
  ((implicit_length_iff 2).2 ⟨true, true, false, 7, [0xaa, 0xbb], 7, 0⟩ [0x2a] [0x3b, 0xaa, 0xbb, 0x00, 0x07, 0x2a] 6
    rfl (by decide) rfl (by decide)).mpr (by decide)

/-- The header without connection ID and length, of record 0. -/
def shortHdr : UnifiedHdr := ⟨false, false, false, 0, [], 0, 0⟩

/-- Every payload of `2^16` bytes is lost. -/
theorem unifiedParse_lost {payload : Bytes} (h : payload.length = 65536) :
    unifiedSerialize shortHdr payload 65538 = .ok (0x20 :: 0 :: payload) ∧
    unifiedParse (0x20 :: 0 :: payload) 0 = .ok (shortHdr, 2, []) := by
  refine ⟨unifiedSerialize_eq_ok.mpr ⟨nofun, fun _ => by decide, nofun, ?_, rfl⟩, ?_⟩
  · simp only [List.length_cons, h]
    decide
  · have hfits : Fits shortHdr 0 [] payload :=
      ⟨rfl, nofun, rfl, by decide, rfl, by decide, fun _ => by rw [h]; exact dvd_refl _⟩
    exact hfits.unifiedParse

/-- A payload of `2^16` bytes is serialized, and the parser returns an empty one. -/
theorem implicit_length_lost :
    unifiedSerialize shortHdr (List.replicate 65536 0) 65538 = .ok (0x20 :: 0 :: List.replicate 65536 0) ∧
    unifiedParse (0x20 :: 0 :: List.replicate 65536 0) 0 = .ok (shortHdr, 2, []) :=
  unifiedParse_lost List.length_replicate

end ND.Proof.Record
