import NanoDtls.Proof.Messages
import NanoDtls.Proof.Unified

/-!
# Sums of sizes that wrap around

Four functions add sizes that the caller gives before they compare the sum
with a limit, in `size_t`. If the sum wraps around, the comparison lets
through what it is there to refuse. `Ensures .ub` says what the limit is for:
the call does not run into undefined behaviour, and if it returns `ND_OK`, the
sizes are in bounds, over the integers. Each function has this property for
exactly the sizes of one condition. `nd_record_protect` adds one and
`nd_unified_serialize` five sizes. The writer of `nd_certificate_serialize`
adds one size to another in each write: `Puts` abstracts from its bytes. In
`nd_unified_parse` a `cid_len` of `SIZE_MAX` leads back to the start of the
buffer, and the header is accepted (`unifiedParseView_of_max`).
-/

namespace ND.Proof.Sizes

open ND.Impl ND.Impl.Record ND.Impl.Messages
open ND.Proof.Record (cidSize seqSize lenSize headerBytes length_headerBytes)

/-! ## Protecting a record -/

theorem recordProtect_of_max (p : RecordProtection) (contentType : Byte) {plaintext : Bytes} (cap : Nat)
    (hmax : plaintext.length = 2 ^ 64 - 1) : recordProtect p contentType plaintext cap = .error .ub := by
  rw [recordProtect, failIf_bind (by rw [hmax]; decide), failIf_pos _ (by rw [hmax]; decide), error_bind]

theorem recordProtect_ensures (p : RecordProtection) (contentType : Byte) {plaintext : Bytes} (cap : Nat)
    (hlt : plaintext.length < 2 ^ 64) :
    Ensures .ub (recordProtect p contentType plaintext cap) (fun _ => plaintext.length ≤ 2047) ↔
      plaintext.length ≠ 2 ^ 64 - 1 := by
  constructor
  · intro h hmax
    exact h.1 (recordProtect_of_max p contentType cap hmax)
  · intro hne
    unfold recordProtect
    refine ensures_failIf_bind nofun fun hsum => ?_
    rw [szAdd_eq (by omega)] at hsum
    rw [failIf_bind hsum]
    refine ensures_failIf_bind nofun fun _ => ensures_ok ?_
    rw [recordProtectMaxInner] at hsum
    omega

/-! ## Serializing a unified header -/

/-- The size of a record, over the integers. -/
def unifiedSize (hdr : UnifiedHdr) (payload : Bytes) : Nat :=
  1 + cidSize hdr hdr.cid.length + seqSize hdr + lenSize hdr + payload.length

/-- The arguments that `nd_unified_serialize` does not refuse with `ND_ERR_BAD_ARG`. -/
structure Consistent (hdr : UnifiedHdr) (payload : Bytes) : Prop where
  cid : ¬ (hdr.cidPresent ∧ hdr.cid.length = 0)
  sequence : ¬ (¬ hdr.seqLenIs16bit ∧ 0xFF < hdr.sequenceNumber)
  length : ¬ (hdr.lengthPresent ∧ 0xFFFF < payload.length)

/-- The sum as the C computes it. -/
theorem szAdd_sizes (a b c d : Nat) : szAdd (szAdd (szAdd (szAdd 1 a) b) c) d = (1 + a + b + c + d) % 2 ^ 64 := by
  simp only [szAdd]
  omega

theorem length_record (hdr : UnifiedHdr) (payload : Bytes) :
    (headerBytes hdr payload.length ++ payload).length = unifiedSize hdr payload := by
  rw [List.length_append, length_headerBytes, unifiedSize]

/-- `nd_unified_serialize` after the checks of its arguments. -/
theorem unifiedSerialize_eq {hdr : UnifiedHdr} {payload : Bytes} (h : Consistent hdr payload) (cap : Nat) :
    unifiedSerialize hdr payload cap = (do
      failIf (cap < unifiedSize hdr payload % 2 ^ 64) .badLength
      failIf (cap < unifiedSize hdr payload) .ub
      return headerBytes hdr payload.length ++ payload) := by
  have hsum : unifiedSize hdr payload % 2 ^ 64 = _ := (szAdd_sizes _ _ _ _).symm
  rw [hsum, ← length_record, unifiedSerialize, failIf_bind h.cid, failIf_bind h.sequence, failIf_bind h.length]
  rfl

theorem unifiedSerialize_of_wrap {hdr : UnifiedHdr} {payload : Bytes} {cap : Nat} (h : Consistent hdr payload)
    (hcap : cap < unifiedSize hdr payload) (hwrap : unifiedSize hdr payload % 2 ^ 64 ≤ cap) :
    unifiedSerialize hdr payload cap = .error .ub := by
  rw [unifiedSerialize_eq h, failIf_bind (by omega), failIf_pos _ hcap, error_bind]

theorem unifiedSerialize_ensures {hdr : UnifiedHdr} {payload : Bytes} {cap : Nat} (hcap : cap < 2 ^ 64) :
    Ensures .ub (unifiedSerialize hdr payload cap) (fun _ => unifiedSize hdr payload ≤ cap) ↔
      (Consistent hdr payload → 2 ^ 64 ≤ unifiedSize hdr payload → cap < unifiedSize hdr payload % 2 ^ 64) := by
  constructor
  · intro h hok hbig
    by_contra hwrap
    exact h.1 (unifiedSerialize_of_wrap hok (by omega) (by omega))
  · intro h
    by_cases hok : Consistent hdr payload
    · rw [unifiedSerialize_eq hok]
      refine ensures_failIf_bind nofun fun hsum => ?_
      have hle : unifiedSize hdr payload ≤ cap := by
        have := h hok
        omega
      rw [failIf_bind (by omega)]
      exact ensures_ok hle
    · unfold unifiedSerialize
      refine ensures_failIf_bind nofun fun hcid => ensures_failIf_bind nofun fun hseq =>
        ensures_failIf_bind nofun fun hlen => absurd ⟨hcid, hseq, hlen⟩ hok

/-! ## The sizes of a writer -/

/-- A write of `n` bytes: the number of bytes written so far, and the mark. -/
def put (cap : Nat) (s : Nat × Option Status) (n : Nat) : Nat × Option Status :=
  if s.2.isSome then s
  else if cap < szAdd s.1 n then (s.1, some .badLength)
  else if cap < s.1 + n then (s.1, some .ub)
  else (s.1 + n, none)

/-- The writes of `f` have these sizes. -/
structure Puts (f : Writer → Writer) (sizes : List Nat) : Prop where
  cap : ∀ w, (f w).cap = w.cap
  state : ∀ w, ((f w).buf.length, (f w).bad) = sizes.foldl (put w.cap) (w.buf.length, w.bad)

theorem put_marked {cap n : Nat} {s : Nat × Option Status} (h : s.2.isSome) : put cap s n = s := if_pos h

theorem foldl_put_marked {cap : Nat} {s : Nat × Option Status} (h : s.2.isSome) (sizes : List Nat) :
    sizes.foldl (put cap) s = s := by
  induction sizes with
  | nil => rfl
  | cons n sizes ih => rw [List.foldl_cons, put_marked h, ih]

theorem put_of_le {cap a n : Nat} (hcap : cap < 2 ^ 64) (hle : a + n ≤ cap) : put cap (a, none) n = (a + n, none) := by
  rw [put, if_neg (by simp), if_neg (by rw [szAdd_eq (by omega)]; omega), if_neg (by simp only; omega)]

/-- If nothing was marked, all bytes are written. -/
theorem foldl_put_none {cap : Nat} : ∀ {sizes : List Nat} {a b : Nat}, sizes.foldl (put cap) (a, none) = (b, none) →
    b = a + sizes.sum ∧ (a ≤ cap → b ≤ cap)
  | [], a, b, h => by
    cases h
    exact ⟨rfl, id⟩
  | n :: sizes, a, b, h => by
    rw [List.foldl_cons, put, if_neg (by simp)] at h
    split at h
    · rw [foldl_put_marked rfl] at h
      cases h
    · split at h
      · rw [foldl_put_marked rfl] at h
        cases h
      · rename_i hle
        obtain ⟨hb, hcap⟩ := foldl_put_none h
        exact ⟨by rw [hb, List.sum_cons, Nat.add_assoc], fun _ => hcap (Nat.le_of_not_lt hle)⟩

/-- A write that its check lets through because the sum wraps around: the writes before it fit. -/
def Wraps (cap a : Nat) (sizes : List Nat) : Prop :=
  ∃ pre n post, sizes = pre ++ n :: post ∧ a + pre.sum ≤ cap ∧ 2 ^ 64 ≤ a + pre.sum + n ∧ a + pre.sum + n ≤ cap + 2 ^ 64

theorem wraps_cons {cap a n : Nat} {sizes : List Nat} :
    Wraps cap a (n :: sizes) ↔
      a ≤ cap ∧ (2 ^ 64 ≤ a + n ∧ a + n ≤ cap + 2 ^ 64 ∨ a + n ≤ cap ∧ Wraps cap (a + n) sizes) := by
  constructor
  · rintro ⟨pre, m, post, h, hle, hbig, hwrap⟩
    cases pre with
    | nil =>
      obtain ⟨rfl, rfl⟩ := List.cons.inj h
      exact ⟨hle, .inl ⟨hbig, hwrap⟩⟩
    | cons k pre =>
      obtain ⟨rfl, rfl⟩ := List.cons.inj h
      rw [List.sum_cons] at hle hbig hwrap
      exact ⟨by omega, .inr ⟨by omega, pre, m, post, rfl, by omega, by omega, by omega⟩⟩
  · rintro ⟨hle, ⟨hbig, hwrap⟩ | ⟨-, pre, m, post, rfl, hle', hbig, hwrap⟩⟩
    · exact ⟨[], n, sizes, rfl, hle, hbig, hwrap⟩
    · refine ⟨n :: pre, m, post, rfl, ?_, ?_, ?_⟩ <;> rw [List.sum_cons] <;> omega

theorem foldl_put_ub {cap : Nat} (hcap : cap < 2 ^ 64) : ∀ {sizes : List Nat} {a : Nat}, (∀ n ∈ sizes, n < 2 ^ 64) →
    a ≤ cap → ((sizes.foldl (put cap) (a, none)).2 = some .ub ↔ Wraps cap a sizes)
  | [], a, _, _ => iff_of_false nofun (by rintro ⟨pre, n, post, h, -⟩; simp at h)
  | n :: sizes, a, hn, ha => by
    have hlt := hn n List.mem_cons_self
    rw [List.foldl_cons, wraps_cons]
    by_cases hle : a + n ≤ cap
    · rw [put_of_le hcap hle, foldl_put_ub hcap (fun m hm => hn m (List.mem_cons_of_mem _ hm)) hle]
      constructor
      · intro h
        exact ⟨ha, .inr ⟨hle, h⟩⟩
      · rintro ⟨-, ⟨hbig, -⟩ | ⟨-, h⟩⟩
        · omega
        · exact h
    · rw [put, if_neg (by simp)]
      have hsum : szAdd a n = (a + n) % 2 ^ 64 := rfl
      by_cases hcheck : cap < szAdd a n
      · rw [if_pos hcheck, foldl_put_marked rfl]
        refine iff_of_false nofun ?_
        rintro ⟨-, ⟨hbig, hwrap⟩ | ⟨hle', -⟩⟩ <;> omega
      · rw [if_neg hcheck, if_pos (by simp only; omega), foldl_put_marked rfl]
        exact iff_of_true rfl ⟨ha, .inl ⟨by omega, by omega⟩⟩

theorem puts_id : Puts id [] := ⟨fun _ => rfl, fun _ => rfl⟩

theorem puts_bytes (data : Bytes) : Puts (Writer.bytes data) [data.length] where
  cap w := by
    unfold Writer.bytes
    split_ifs <;> rfl
  state w := by
    rw [List.foldl_cons, List.foldl_nil, Writer.bytes, put]
    split_ifs <;> simp_all

theorem Puts.comp {f g : Writer → Writer} {a b : List Nat} (hf : Puts f a) (hg : Puts g b) :
    Puts (fun w => g (f w)) (a ++ b) where
  cap w := (hg.cap _).trans (hf.cap w)
  state w := by rw [hg.state, hf.state, hf.cap, List.foldl_append]

/-- The patch of a length writes over the bytes that were reserved for it. -/
theorem length_patch {w : Writer} {n pos : Nat} (h : w.bad = none → pos + n ≤ w.buf.length) :
    ((Writer.patch n pos w).buf.length, (Writer.patch n pos w).bad) = (w.buf.length, w.bad) := by
  unfold Writer.patch
  split
  · rfl
  · rename_i hbad
    have hle := h (Option.not_isSome_iff_eq_none.mp hbad)
    simp only [List.length_append, List.length_take, List.length_drop, length_beBytes, Prod.mk.injEq, and_true]
    omega

theorem Puts.withLen {f : Writer → Writer} {sizes : List Nat} (n : Nat) (hf : Puts f sizes) :
    Puts (Writer.withLen n f) (n :: sizes) := by
  have hbody := (puts_bytes (List.replicate n 0)).comp hf
  rw [List.length_replicate, List.singleton_append] at hbody
  refine ⟨fun w => ?_, fun w => ?_⟩
  · have hcap := hbody.cap w
    unfold Writer.withLen Writer.patch
    split <;> exact hcap
  · have hstate := hbody.state w
    rw [Writer.withLen, length_patch]
    · exact hstate
    · intro hnone
      rw [show Writer.reserve n w = Writer.bytes (List.replicate n 0) w from rfl] at hnone ⊢
      rw [hnone] at hstate
      cases hbad : w.bad with
      | some e =>
        rw [hbad, foldl_put_marked rfl] at hstate
        exact absurd (congrArg Prod.snd hstate).symm (Option.some_ne_none e)
      | none =>
        rw [hbad] at hstate
        obtain ⟨hlen, -⟩ := foldl_put_none hstate.symm
        rw [hlen, List.sum_cons]
        omega

theorem puts_foldl {f : Writer → Bytes → Writer} {sizes : Bytes → List Nat} (hf : ∀ b, Puts (f · b) (sizes b)) :
    ∀ l : List Bytes, Puts (fun w => l.foldl f w) (l.flatMap sizes)
  | [] => puts_id
  | b :: l => (hf b).comp (puts_foldl hf l)

section Finish

variable {f : Writer → Writer} {sizes : List Nat} (hf : Puts f sizes) {cap : Nat} (hcap : cap < 2 ^ 64)
  (hsizes : ∀ n ∈ sizes, n < 2 ^ 64)
include hf hcap hsizes

theorem Puts.finish_ub : Writer.finish (f (Writer.init cap)) = .error .ub ↔ Wraps cap 0 sizes := by
  have hub := foldl_put_ub hcap hsizes (Nat.zero_le cap)
  rw [show sizes.foldl (put cap) (0, none) = _ from (hf.state (Writer.init cap)).symm] at hub
  rw [← hub, Writer.finish]
  cases (f (Writer.init cap)).bad with
  | some e => rw [Except.error.injEq, Option.some.injEq]
  | none => simp only [reduceCtorEq]

/-- A function that writes its whole output with one writer. -/
theorem Puts.finish_ensures :
    Ensures .ub (Writer.finish (f (Writer.init cap))) (fun _ => sizes.sum ≤ cap) ↔ ¬ Wraps cap 0 sizes := by
  rw [← hf.finish_ub hcap hsizes]
  refine and_iff_left fun out hout => ?_
  have hstate := hf.state (Writer.init cap)
  unfold Writer.finish at hout
  split at hout
  · cases hout
  · rename_i hbad
    rw [hbad] at hstate
    obtain ⟨hlen, hle⟩ := foldl_put_none hstate.symm
    rw [← Nat.zero_add sizes.sum]
    exact hlen ▸ hle (Nat.zero_le cap)

end Finish

/-! ## Serializing a Certificate -/

/-- The sizes of the writes of `nd_certificate_serialize`: the context and the length of the list, and for each
certificate its length, itself and the length of its extensions. -/
def certificateSizes (certs : List Bytes) : List Nat := 1 :: 3 :: certs.flatMap fun der => [3, der.length, 2]

theorem puts_certificate (certs : List Bytes) :
    Puts (fun w => Writer.withLen 3 (fun w => certs.foldl certificateEntry w) (Writer.u8 0x00 w)) (certificateSizes certs) :=
  (puts_bytes (beBytes 1 0)).comp ((puts_foldl (fun der => ((puts_bytes der).withLen 3).comp (puts_id.withLen 2)) certs).withLen 3)

section Certificate

variable {certs : List Bytes} {cap : Nat} (hcap : cap < 2 ^ 64) (hcerts : ∀ der ∈ certs, der.length < 2 ^ 64)
include hcerts

theorem certificateSizes_lt : ∀ n ∈ certificateSizes certs, n < 2 ^ 64 := by
  simp only [certificateSizes, List.mem_cons, List.mem_flatMap, List.not_mem_nil, or_false]
  rintro n (rfl | rfl | ⟨der, hder, rfl | rfl | rfl⟩)
  · decide
  · decide
  · decide
  · exact hcerts der hder
  · decide

include hcap

theorem certificateSerialize_of_wrap (h0 : certs ≠ []) (h4 : certs.length ≤ 4) (h : Wraps cap 0 (certificateSizes certs)) :
    certificateSerialize certs cap = .error .ub := by
  rw [Messages.certificateSerialize_eq_finish h0 h4]
  exact ((puts_certificate certs).finish_ub hcap (certificateSizes_lt hcerts)).mpr h

theorem certificateSerialize_ensures :
    Ensures .ub (certificateSerialize certs cap) (fun _ => (certificateSizes certs).sum ≤ cap) ↔
      (certs ≠ [] → certs.length ≤ 4 → ¬ Wraps cap 0 (certificateSizes certs)) := by
  by_cases hcount : certs ≠ [] ∧ certs.length ≤ 4
  · rw [Messages.certificateSerialize_eq_finish hcount.1 hcount.2,
      show Ensures .ub (Writer.finish _) _ ↔ _ from
        (puts_certificate certs).finish_ensures hcap (certificateSizes_lt hcerts)]
    exact ⟨fun h _ _ => h, fun h => h hcount.1 hcount.2⟩
  · refine iff_of_true ?_ fun h0 h4 => absurd ⟨h0, h4⟩ hcount
    refine ensures_failIf_bind nofun fun h => absurd ⟨?_, ?_⟩ hcount
    · exact fun h0 => h (.inl (List.length_eq_zero_iff.mpr h0))
    · exact Nat.le_of_not_lt fun h4 => h (.inr h4)

end Certificate

/-! ## Reading with indices that wrap around -/

section Reads

variable {buf : Bytes} {off n : Nat}

theorem readAt_of_lt {i : Nat} (h : i < buf.length) : readAt buf i = .ok buf[i] := by
  rw [readAt, List.getElem?_eq_getElem h]

theorem readAt_of_le {i : Nat} (h : buf.length ≤ i) : readAt buf i = .error .ub := by
  rw [readAt, List.getElem?_eq_none h]

theorem readSlice_of_le (h : off + n ≤ buf.length) : readSlice buf off n = .ok ((buf.drop off).take n) := if_pos h

theorem readBytes_ok_or_ub (buf : Bytes) (off n : Nat) :
    (∃ b, readBytes buf off n = .ok b) ∨ readBytes buf off n = .error .ub := by
  refine mapM_ok_or_error (fun i => ?_) (List.range n)
  rcases Nat.lt_or_ge (szAdd off i) buf.length with h | h
  · exact .inl ⟨_, readAt_of_lt h⟩
  · exact .inr (readAt_of_le h)

/-- The bytes at indices inside the buffer. -/
theorem readBytes_eq (hbuf : buf.length < 2 ^ 64) (h : off + n ≤ buf.length) :
    readBytes buf off n = .ok ((buf.drop off).take n) := by
  refine mapM_eq_ok.mpr (List.forall₂_iff_get.mpr ⟨?_, fun i hi _ => ?_⟩)
  · rw [List.length_range, List.length_take, List.length_drop]
    omega
  · rw [List.length_range] at hi
    simp only [List.get_eq_getElem, List.getElem_range, List.getElem_take, List.getElem_drop]
    rw [szAdd_eq (by omega), readAt_of_lt (by omega)]

/-- One index outside the buffer is enough. -/
theorem readBytes_of_le {i : Nat} (hi : i < n) (h : buf.length ≤ szAdd off i) : readBytes buf off n = .error .ub := by
  rcases readBytes_ok_or_ub buf off n with ⟨b, hb⟩ | hub
  · have hall := (List.forall₂_iff_get.mp (mapM_eq_ok.mp hb))
    have hread := hall.2 i (by rw [List.length_range]; exact hi) (by rw [← hall.1, List.length_range]; exact hi)
    rw [List.get_eq_getElem, List.getElem_range, readAt_of_le h] at hread
    cases hread
  · exact hub

end Reads

/-! ## Parsing a unified header -/

section Parse

variable {buf : Bytes} {cidLen off : Nat}

/-- The sizes of the sequence number and the length field, from the first byte. -/
def seqLen (b0 : Byte) : Nat := if b0 &&& unifiedSeqlenBit != 0 then 2 else 1

def lengthLen (b0 : Byte) : Nat := if b0 &&& unifiedLenBit != 0 then 2 else 0

/-- The size of a header, over the integers. -/
def headerSize (b0 : Byte) (cidLen : Nat) : Nat :=
  1 + (if b0 &&& unifiedCidBit != 0 then cidLen else 0) + seqLen b0 + lengthLen b0

theorem seqLen_le (b0 : Byte) : seqLen b0 ≤ 2 := by
  unfold seqLen
  split <;> decide

theorem lengthLen_le (b0 : Byte) : lengthLen b0 ≤ 2 := by
  unfold lengthLen
  split <;> decide

/-- The length of the payload when the fields begin at `off`. -/
def payloadLen (buf : Bytes) (b0 : Byte) (off : Nat) : Nat :=
  if b0 &&& unifiedLenBit != 0 then beNat ((buf.drop (off + seqLen b0)).take (lengthLen b0))
  else (buf.length - (off + seqLen b0 + lengthLen b0)) % 2 ^ 16

theorem unifiedFieldsAt_eq (hbuf : buf.length < 2 ^ 64) {b0 : Byte} (hle : off + seqLen b0 + lengthLen b0 ≤ buf.length) :
    unifiedFieldsAt buf (b0 &&& unifiedSeqlenBit != 0) (b0 &&& unifiedLenBit != 0) off = (do
      failIf (b0 &&& unifiedLenBit != 0 ∧ buf.length - (off + seqLen b0 + lengthLen b0) < payloadLen buf b0 off) .badLength
      return (beNat ((buf.drop off).take (seqLen b0)), payloadLen buf b0 off, off + seqLen b0 + lengthLen b0)) := by
  have hsub : szSub buf.length (off + seqLen b0 + lengthLen b0) = buf.length - (off + seqLen b0 + lengthLen b0) := by
    rw [szSub]
    omega
  unfold unifiedFieldsAt
  rw [← seqLen, ← lengthLen, readBytes_eq hbuf (by omega), map_ok, ok_bind, szAdd_eq (by omega)]
  dsimp only
  rw [readBytes_eq hbuf (by omega), map_ok, ok_bind, szAdd_eq (by omega), hsub]
  rfl

/-- Fields that go beyond the last index. -/
theorem unifiedFieldsAt_of_wrap (hbuf : buf.length < 2 ^ 64) {b0 : Byte} (hoff : off < 2 ^ 64)
    (hwrap : 2 ^ 64 ≤ off + seqLen b0 + lengthLen b0) :
    unifiedFieldsAt buf (b0 &&& unifiedSeqlenBit != 0) (b0 &&& unifiedLenBit != 0) off = .error .ub := by
  unfold unifiedFieldsAt
  rw [← seqLen, ← lengthLen]
  rcases Nat.lt_or_ge (off + seqLen b0) (2 ^ 64) with hlt | hge
  · rcases readBytes_ok_or_ub buf off (seqLen b0) with ⟨b, hb⟩ | hub
    · have hlast : szAdd (off + seqLen b0) (2 ^ 64 - 1 - (off + seqLen b0)) = 2 ^ 64 - 1 := by
        rw [szAdd]
        omega
      rw [hb, map_ok, ok_bind, szAdd_eq hlt]
      dsimp only
      rw [readBytes_of_le (show 2 ^ 64 - 1 - (off + seqLen b0) < lengthLen b0 by omega) (by rw [hlast]; omega)]
      rfl
    · rw [hub]
      rfl
  · have hlast : szAdd off (2 ^ 64 - 1 - off) = 2 ^ 64 - 1 := by
      rw [szAdd]
      omega
    rw [readBytes_of_le (show 2 ^ 64 - 1 - off < seqLen b0 by omega) (by rw [hlast]; omega)]
    rfl

theorem szAdd_header (b0 : Byte) (cidLen : Nat) :
    szAdd (szAdd (szAdd 1 (if b0 &&& unifiedCidBit != 0 then cidLen else 0)) (seqLen b0)) (lengthLen b0) =
      headerSize b0 cidLen % 2 ^ 64 := by
  simp only [szAdd, headerSize]
  omega

/-- `nd_unified_parse` after the checks of the first byte. -/
theorem unifiedParseView_cons {b0 : Byte} {tail : Bytes} (hfixed : b0 &&& unifiedFixedBitsMask = unifiedFixedBitsVal)
    (hcid : ¬ (b0 &&& unifiedCidBit != 0 ∧ cidLen = 0)) :
    unifiedParseView (b0 :: tail) cidLen = (do
      failIf ((b0 :: tail).length < headerSize b0 cidLen % 2 ^ 64) .truncated
      let (seq, length, payload) ← unifiedFieldsAt (b0 :: tail) (b0 &&& unifiedSeqlenBit != 0) (b0 &&& unifiedLenBit != 0)
        (szAdd 1 (if b0 &&& unifiedCidBit != 0 then cidLen else 0))
      return { cidPresent := b0 &&& unifiedCidBit != 0, seqLenIs16bit := b0 &&& unifiedSeqlenBit != 0,
               lengthPresent := b0 &&& unifiedLenBit != 0, epochLow2 := b0 &&& unifiedEpochMask,
               cid := if b0 &&& unifiedCidBit != 0 then some 1 else none,
               cidLen := if b0 &&& unifiedCidBit != 0 then cidLen else 0,
               sequenceNumber := seq, length := length, payload := payload }) := by
  rw [unifiedParseView, failIf_bind (by simp), show readAt (b0 :: tail) 0 = .ok b0 from rfl, ok_bind,
    failIf_bind (not_not.mpr hfixed), failIf_bind hcid, ← szAdd_header]
  rfl

/-- The header and the payload lie inside the buffer. -/
def Inside (buf : Bytes) (cidLen : Nat) (v : UnifiedView) : Prop :=
  headerSize (buf.headD 0) cidLen ≤ buf.length ∧ v.payload + v.length ≤ buf.length

/-- The size of the header wraps around to one that the buffer has, and if `cid_len` is `SIZE_MAX`, so that the fields
are read from the start of the buffer, a length field there does not reach beyond it. -/
structure ParseWraps (buf : Bytes) (cidLen : Nat) : Prop where
  unified : buf.headD 0 &&& unifiedFixedBitsMask = unifiedFixedBitsVal
  big : 2 ^ 64 ≤ headerSize (buf.headD 0) cidLen
  passes : headerSize (buf.headD 0) cidLen ≤ buf.length + 2 ^ 64
  length : cidLen = 2 ^ 64 - 1 → buf.headD 0 &&& unifiedLenBit != 0 →
    seqLen (buf.headD 0) + lengthLen (buf.headD 0) + payloadLen buf (buf.headD 0) 0 ≤ buf.length

theorem payload_inside {b0 : Byte} (hle : off + seqLen b0 + lengthLen b0 ≤ buf.length)
    (hlen : ¬ (b0 &&& unifiedLenBit != 0 ∧ buf.length - (off + seqLen b0 + lengthLen b0) < payloadLen buf b0 off)) :
    off + seqLen b0 + lengthLen b0 + payloadLen buf b0 off ≤ buf.length := by
  by_cases hbit : (b0 &&& unifiedLenBit != 0) = true
  · have := not_and.mp hlen hbit
    omega
  · have hmod := Nat.mod_le (buf.length - (off + seqLen b0 + lengthLen b0)) (2 ^ 16)
    rw [payloadLen, if_neg hbit]
    omega

/-- A header whose size does not wrap around. -/
theorem unifiedParseView_of_lt {b0 : Byte} {tail : Bytes} (hbuf : (b0 :: tail).length < 2 ^ 64)
    (hfixed : b0 &&& unifiedFixedBitsMask = unifiedFixedBitsVal) (hlt : headerSize b0 cidLen < 2 ^ 64) :
    Ensures .ub (unifiedParseView (b0 :: tail) cidLen) (Inside (b0 :: tail) cidLen) := by
  by_cases hcid : b0 &&& unifiedCidBit != 0 ∧ cidLen = 0
  · rw [unifiedParseView, failIf_bind (by simp), show readAt (b0 :: tail) 0 = .ok b0 from rfl, ok_bind,
      failIf_bind (not_not.mpr hfixed)]
    exact ensures_failIf_bind nofun fun h => absurd hcid h
  rw [unifiedParseView_cons hfixed hcid, Nat.mod_eq_of_lt hlt]
  refine ensures_failIf_bind nofun fun hneed => ?_
  have hsize : headerSize b0 cidLen = 1 + (if b0 &&& unifiedCidBit != 0 then cidLen else 0) + seqLen b0 + lengthLen b0 := rfl
  rw [szAdd_eq (by omega), unifiedFieldsAt_eq hbuf (by omega), bind_assoc]
  refine ensures_failIf_bind nofun fun hlen => ensures_ok ⟨by simp only [List.headD_cons]; omega, ?_⟩
  exact payload_inside (by omega) hlen

/-- With `cid_len = SIZE_MAX` the fields are read from the start of the buffer. -/
theorem unifiedParseView_of_max {b0 : Byte} {tail : Bytes} (hbuf : (b0 :: tail).length < 2 ^ 64)
    (hfixed : b0 &&& unifiedFixedBitsMask = unifiedFixedBitsVal) (hcid : b0 &&& unifiedCidBit != 0)
    (hle : seqLen b0 + lengthLen b0 ≤ (b0 :: tail).length) :
    unifiedParseView (b0 :: tail) (2 ^ 64 - 1) = (do
      failIf (b0 &&& unifiedLenBit != 0 ∧ (b0 :: tail).length - (0 + seqLen b0 + lengthLen b0) <
        payloadLen (b0 :: tail) b0 0) .badLength
      return { cidPresent := true, seqLenIs16bit := b0 &&& unifiedSeqlenBit != 0,
               lengthPresent := b0 &&& unifiedLenBit != 0, epochLow2 := b0 &&& unifiedEpochMask,
               cid := some 1, cidLen := 2 ^ 64 - 1, sequenceNumber := beNat ((b0 :: tail).take (seqLen b0)),
               length := payloadLen (b0 :: tail) b0 0, payload := 0 + seqLen b0 + lengthLen b0 }) := by
  have hmod : headerSize b0 (2 ^ 64 - 1) % 2 ^ 64 = seqLen b0 + lengthLen b0 := by
    have hseq := seqLen_le b0
    have hlen := lengthLen_le b0
    rw [headerSize, if_pos hcid]
    omega
  rw [unifiedParseView_cons hfixed (fun h => absurd h.2 (by decide)), hmod, failIf_bind (by omega), if_pos hcid, if_pos hcid,
    show szAdd 1 (2 ^ 64 - 1) = 0 from rfl, unifiedFieldsAt_eq hbuf (by omega), hcid, bind_assoc]
  rfl

theorem unifiedParseView_ensures (hbuf : buf.length < 2 ^ 64) (hcidLen : cidLen < 2 ^ 64) :
    Ensures .ub (unifiedParseView buf cidLen) (Inside buf cidLen) ↔ ¬ ParseWraps buf cidLen := by
  cases buf with
  | nil => exact iff_of_true (ensures_error nofun) fun h => absurd h.unified (by decide)
  | cons b0 tail =>
    by_cases hfixed : b0 &&& unifiedFixedBitsMask = unifiedFixedBitsVal
    swap
    · refine iff_of_true ?_ fun h => hfixed h.unified
      unfold unifiedParseView
      refine ensures_failIf_bind nofun fun _ => ?_
      rw [show readAt (b0 :: tail) 0 = .ok b0 from rfl, ok_bind]
      exact ensures_failIf_bind nofun fun h => absurd hfixed h
    by_cases hbig : 2 ^ 64 ≤ headerSize b0 cidLen
    swap
    · exact iff_of_true (unifiedParseView_of_lt hbuf hfixed (Nat.lt_of_not_le hbig)) fun h => hbig h.big
    have hseq := seqLen_le b0
    have hlenSize := lengthLen_le b0
    -- only a connection ID can make the header so large
    have hbit : (b0 &&& unifiedCidBit != 0) = true := by
      by_contra hno
      rw [headerSize, if_neg hno] at hbig
      omega
    have hsize : headerSize b0 cidLen = 1 + cidLen + seqLen b0 + lengthLen b0 := by rw [headerSize, if_pos hbit]
    have hcons : unifiedParseView (b0 :: tail) cidLen = _ := unifiedParseView_cons hfixed (by omega)
    by_cases hpass : headerSize b0 cidLen ≤ (b0 :: tail).length + 2 ^ 64
    swap
    · rw [hcons, failIf_pos _ (by omega)]
      exact iff_of_true (ensures_error nofun) fun h => hpass h.passes
    by_cases hmax : cidLen = 2 ^ 64 - 1
    · subst hmax
      rw [unifiedParseView_of_max hbuf hfixed hbit (by omega)]
      by_cases hlen : b0 &&& unifiedLenBit != 0 ∧ (b0 :: tail).length - (0 + seqLen b0 + lengthLen b0) <
          payloadLen (b0 :: tail) b0 0
      · rw [failIf_pos _ hlen]
        refine iff_of_true (ensures_error nofun) fun h => ?_
        have hinside : seqLen b0 + lengthLen b0 + payloadLen (b0 :: tail) b0 0 ≤ _ := h.length rfl hlen.1
        omega
      · rw [failIf_bind hlen]
        refine iff_of_false (fun h => ?_) (not_not.mpr ⟨hfixed, hbig, hpass, fun _ hL => ?_⟩)
        · have hheader : headerSize b0 (2 ^ 64 - 1) ≤ _ := (h.2 _ rfl).1
          omega
        · have hinside := payload_inside (by omega) hlen
          rwa [Nat.zero_add] at hinside
    · rw [hcons, failIf_bind (by omega), if_pos hbit, szAdd_eq (by omega),
        unifiedFieldsAt_of_wrap hbuf (by omega) (by omega)]
      exact iff_of_false (fun h => h.1 rfl) (not_not.mpr ⟨hfixed, hbig, hpass, fun h => absurd h hmax⟩)

/-- As long as the size of the header does not wrap around, the header and the payload of `unifiedParse` are what the
pointers point to. -/
theorem unifiedParse_eq_view (hbuf : buf.length < 2 ^ 64) (hlt : headerSize (buf.headD 0) cidLen < 2 ^ 64) :
    unifiedParse buf cidLen = (do
      let v ← unifiedParseView buf cidLen
      let cid ← readSlice buf 1 v.cidLen
      let payload ← readSlice buf v.payload v.length
      return ({ cidPresent := v.cidPresent, seqLenIs16bit := v.seqLenIs16bit, lengthPresent := v.lengthPresent,
                epochLow2 := v.epochLow2, cid := cid, sequenceNumber := v.sequenceNumber, length := v.length },
        v.payload, payload)) := by
  cases buf with
  | nil => rfl
  | cons b0 tail =>
    have hsize : headerSize b0 cidLen = 1 + (if b0 &&& unifiedCidBit != 0 then cidLen else 0) + seqLen b0 + lengthLen b0 := rfl
    rw [List.headD_cons] at hlt
    unfold unifiedParse unifiedParseView
    simp only [bind_assoc, ← seqLen.eq_1, ← lengthLen.eq_1]
    refine failIf_bind_congr fun _ => ?_
    rw [show readAt (b0 :: tail) 0 = .ok b0 from rfl, ok_bind, ok_bind]
    refine failIf_bind_congr fun _ => failIf_bind_congr fun _ => failIf_bind_congr fun hneed => ?_
    rw [szAdd_header, Nat.mod_eq_of_lt hlt] at hneed
    have hcid : readSlice (b0 :: tail) 1 (if b0 &&& unifiedCidBit != 0 then cidLen else 0) = .ok _ :=
      readSlice_of_le (by omega)
    rw [hcid, ok_bind, readSlice_of_le (by omega), map_ok, ok_bind, readSlice_of_le (by omega), map_ok, ok_bind,
      szAdd_eq (by omega), unifiedFieldsAt_eq hbuf (by omega), bind_assoc]
    refine failIf_bind_congr fun _ => ?_
    rw [pure_bind, pure_bind]
    dsimp only
    rw [hcid, ok_bind]
    rfl

end Parse

/-- The four checks, for all sizes: each lets nothing through that it is there to refuse if and only if its sum does
not wrap around to a size that passes. -/
theorem length_checks_iff (p : RecordProtection) (contentType : Byte) (plaintext : Bytes) (hdr : UnifiedHdr)
    (payload : Bytes) (certs : List Bytes) (buf : Bytes) (cidLen cap : Nat) (hplaintext : plaintext.length < 2 ^ 64)
    (hcerts : ∀ der ∈ certs, der.length < 2 ^ 64) (hbuf : buf.length < 2 ^ 64) (hcidLen : cidLen < 2 ^ 64)
    (hcap : cap < 2 ^ 64) :
    (Ensures .ub (recordProtect p contentType plaintext cap) (fun _ => plaintext.length ≤ 2047) ↔
      plaintext.length ≠ 2 ^ 64 - 1) ∧
    (Ensures .ub (unifiedSerialize hdr payload cap) (fun _ => unifiedSize hdr payload ≤ cap) ↔
      (Consistent hdr payload → 2 ^ 64 ≤ unifiedSize hdr payload → cap < unifiedSize hdr payload % 2 ^ 64)) ∧
    (Ensures .ub (certificateSerialize certs cap) (fun _ => (certificateSizes certs).sum ≤ cap) ↔
      (certs ≠ [] → certs.length ≤ 4 → ¬ Wraps cap 0 (certificateSizes certs))) ∧
    (Ensures .ub (unifiedParseView buf cidLen) (Inside buf cidLen) ↔ ¬ ParseWraps buf cidLen) :=
  ⟨recordProtect_ensures p contentType cap hplaintext, unifiedSerialize_ensures hcap,
    certificateSerialize_ensures hcap hcerts, unifiedParseView_ensures hbuf hcidLen⟩

/-- One byte with the bit of the connection ID set, parsed with `cid_len = SIZE_MAX`: the sum is 1. -/
theorem length_checks_iff_one_byte :
    let p := recordProtectionInit (zeros 32) (zeros 12) 0
    Ensures .ub (recordProtect p 23 [1] 64) (fun _ => [(1 : Byte)].length ≤ 2047) ∧
    ¬ Ensures .ub (unifiedParseView [0x30] (2 ^ 64 - 1)) (Inside [0x30] (2 ^ 64 - 1)) := by
  intro p
  have h := length_checks_iff p 23 [1] ⟨false, false, false, 0, [], 0, 0⟩ [] [[]] [0x30] (2 ^ 64 - 1) 64 (by decide)
    (by decide) (by decide) (by decide) (by decide)
  refine ⟨h.1.mpr (by decide), fun hensures => h.2.2.2.mp hensures ⟨by decide, by decide, by decide, ?_⟩⟩
  exact fun _ hbit => absurd hbit (by decide)

theorem exists_length (n : Nat) : ∃ l : Bytes, l.length = n := ⟨List.replicate n 0, List.length_replicate⟩

/-- All four checks can be passed with sizes that are out of bounds. `nd_unified_parse` returns `ND_OK` for one byte, with
a connection ID of `SIZE_MAX` bytes; after the other three checks the copies leave their buffers. -/
theorem length_checks_bypassed :
    unifiedParseView [0x30] (2 ^ 64 - 1) = .ok
      { cidPresent := true, seqLenIs16bit := false, lengthPresent := false, epochLow2 := 0, cid := some 1,
        cidLen := 2 ^ 64 - 1, sequenceNumber := 0x30, length := 0, payload := 1 } ∧
    ¬ headerSize 0x30 (2 ^ 64 - 1) ≤ [(0x30 : Byte)].length ∧
    (∃ plaintext : Bytes, plaintext.length = 2 ^ 64 - 1 ∧
      recordProtect (recordProtectionInit (zeros 32) (zeros 12) 0) 23 plaintext 64 = .error .ub) ∧
    (∃ cid : Bytes, cid.length = 2 ^ 64 - 1 ∧ unifiedSerialize ⟨true, false, false, 0, cid, 0, 0⟩ [] 1 = .error .ub) ∧
    ∃ der : Bytes, der.length = 2 ^ 64 - 7 ∧ certificateSerialize [der] 7 = .error .ub := by
  obtain ⟨big, hbig⟩ := exists_length (2 ^ 64 - 1)
  obtain ⟨der, hder⟩ := exists_length (2 ^ 64 - 7)
  refine ⟨by decide, by decide, ⟨big, hbig, recordProtect_of_max _ _ _ hbig⟩, ⟨big, hbig, ?_⟩, der, hder, ?_⟩
  · have hsize : unifiedSize ⟨true, false, false, 0, big, 0, 0⟩ [] = 1 + big.length + 1 + 0 + 0 := rfl
    rw [hbig] at hsize
    refine unifiedSerialize_of_wrap ⟨?_, ?_, ?_⟩ (by rw [hsize]; decide) (by rw [hsize]; decide)
    · exact fun h => absurd (hbig.symm.trans h.2) (by decide)
    · exact fun h => absurd h.2 (show ¬ 0xFF < 0 by decide)
    · exact fun h => absurd h.1 Bool.false_ne_true
  · refine certificateSerialize_of_wrap (by decide) ?_ (List.cons_ne_nil _ _) (show 1 ≤ 4 by decide) ?_
    · intro der' hmem
      rw [List.mem_singleton.mp hmem, hder]
      decide
    · refine ⟨[1, 3, 3], der.length, [2], rfl, by decide, ?_, ?_⟩ <;> rw [hder] <;> decide

end ND.Proof.Sizes
