import NanoDtls.Impl.Ack
import NanoDtls.Proof.Unified
import NanoDtls.Spec.Wire

/-!
# ACK messages, written and read back

A 64-bit number is written and read big-endian (`putU64_eq`, `getU64_ok`).
The serializer writes the vector of the records that count
(`ackSerialize_eq_ok`). The parser accepts the vectors of at most 32 records
(`ackParse_encode`), leaving the rest of its array as it was, and no others
(`exists_encode`). So each undoes the other (`ack_codec`).
-/

namespace ND.Proof.Ack

open ND.Impl
open Spec.Wire (vec length_vec)
open Proof.Record (From)

/-! ## Numbers -/

theorem setWidth_ushiftRight (v : BitVec 64) (k : Nat) : (v >>> (8 * k)).setWidth 8 = BitVec.ofNat 8 (v.toNat / 256 ^ k) := by
  apply BitVec.eq_of_toNat_eq
  rw [BitVec.toNat_setWidth, BitVec.toNat_ushiftRight, Nat.shiftRight_eq_div_pow, BitVec.toNat_ofNat, Nat.pow_mul]

theorem putU64_eq (v : BitVec 64) : putU64 v = beBytes 8 v.toNat := by
  simp only [putU64, setWidth_ushiftRight]
  rfl

/-- A byte shifted into a number. -/
theorem shiftLeft_or (v : BitVec 64) (x : Byte) : v <<< 8 ||| x.setWidth 64 = BitVec.ofNat 64 (256 * v.toNat + x.toNat) := by
  have hx := x.isLt
  apply BitVec.eq_of_toNat_eq
  have hlow : (v <<< 8).toNat = 2 ^ 8 * (v.toNat % 2 ^ 56) := by
    rw [BitVec.toNat_shiftLeft, Nat.shiftLeft_eq]
    omega
  have hbyte : (x.setWidth 64).toNat = x.toNat := by
    rw [BitVec.toNat_setWidth]
    omega
  rw [BitVec.toNat_or, hlow, hbyte, ← Nat.two_pow_add_eq_or_of_lt hx, BitVec.toNat_ofNat]
  omega

theorem foldl_shiftLeft_or : ∀ (b : Bytes) (v : Nat),
    b.foldl (fun (v : BitVec 64) x => v <<< 8 ||| x.setWidth 64) (BitVec.ofNat 64 v) =
      BitVec.ofNat 64 (b.foldl (fun v x => 256 * v + x.toNat) v)
  | [], _ => rfl
  | x :: b, v => by
    rw [List.foldl_cons, List.foldl_cons, shiftLeft_or, ← foldl_shiftLeft_or b]
    congr 1
    apply BitVec.eq_of_toNat_eq
    simp only [BitVec.toNat_ofNat]
    omega

/-- `get_u64` undoes `put_u64`. -/
theorem getU64_ok {buf rest : Bytes} {pos : Nat} {v : BitVec 64} (h : From buf pos (beBytes 8 v.toNat ++ rest)) :
    getU64 buf pos = .ok v ∧ From buf (pos + 8) rest := by
  refine ⟨?_, h.next (length_beBytes _ _)⟩
  have hfold := foldl_shiftLeft_or (beBytes 8 v.toNat) 0
  have hval : (beBytes 8 v.toNat).foldl (fun v x => 256 * v + x.toNat) 0 = v.toNat :=
    (beNat_beBytes 8 v.toNat).trans (Nat.mod_eq_of_lt v.isLt)
  rw [hval, BitVec.ofNat_toNat, BitVec.setWidth_eq] at hfold
  rw [getU64, h.slice (length_beBytes _ _), ok_bind, pure_eq_ok, Except.ok.injEq]
  exact hfold

/-! ## Records -/

/-- The bytes of a record. -/
def recordBytes (r : RecordNumber) : Bytes := beBytes 8 r.epoch.toNat ++ beBytes 8 r.sequenceNumber.toNat

theorem length_recordBytes (r : RecordNumber) : (recordBytes r).length = 16 := by
  rw [recordBytes, List.length_append, length_beBytes, length_beBytes]

/-- The bytes of an ACK with these records. -/
def encode (l : List RecordNumber) : Bytes := vec 2 (l.flatMap recordBytes)

theorem length_flatMap_recordBytes (l : List RecordNumber) : (l.flatMap recordBytes).length = 16 * l.length := by
  induction l with
  | nil => rfl
  | cons r l ih =>
    rw [List.flatMap_cons, List.length_append, length_recordBytes, ih, List.length_cons]
    omega

/-- Bytes that are a multiple of 16 are those of records. -/
theorem exists_records : ∀ (n : Nat) {b : Bytes}, b.length = 16 * n → ∃ l : List RecordNumber, l.length = n ∧ b = l.flatMap recordBytes
  | 0, _, h => ⟨[], rfl, List.length_eq_zero_iff.mp h⟩
  | n + 1, b, h => by
    obtain ⟨l, hl, hrest⟩ := exists_records n (b := b.drop 16) (by rw [List.length_drop]; omega)
    have hnumber : ∀ {c : Bytes}, c.length = 8 → beBytes 8 (BitVec.ofNat 64 (beNat c)).toNat = c := by
      intro c hc
      have hlt := beNat_lt c
      have hback := beBytes_beNat c
      rw [hc] at hlt hback
      rw [BitVec.toNat_ofNat, show beNat c % 2 ^ 64 = beNat c from Nat.mod_eq_of_lt hlt, hback]
    refine ⟨⟨BitVec.ofNat 64 (beNat (b.take 8)), BitVec.ofNat 64 (beNat ((b.drop 8).take 8))⟩ :: l, by rw [List.length_cons, hl], ?_⟩
    rw [List.flatMap_cons, recordBytes, hnumber (by rw [List.length_take]; omega),
      hnumber (by rw [List.length_take, List.length_drop]; omega), ← hrest, List.append_assoc]
    rw [← List.drop_drop (i := 8) (j := 8), List.take_append_drop, List.take_append_drop]

/-! ## The serializer -/

theorem putRecord_eq {ack : Ack} {i : Nat} {r : RecordNumber} (h : ack.records.1[i]? = some r) (out : Bytes) :
    putRecord ack out i = .ok (out ++ recordBytes r) := by
  rw [putRecord, Ack.get, h]
  simp only [ok_bind, pure_eq_ok, putU64_eq, recordBytes, List.append_assoc]

/-- The loop from record `i` on. -/
theorem putRecords_eq {ack : Ack} : ∀ (n i : Nat) (out : Bytes), i + n ≤ 32 →
    (List.range' i n).foldlM (putRecord ack) out = .ok (out ++ ((ack.records.1.drop i).take n).flatMap recordBytes)
  | 0, _, out, _ => by
    rw [List.range'_zero, List.take_zero, List.flatMap_nil, List.append_nil]
    rfl
  | n + 1, i, out, h => by
    have hi : i < ack.records.1.length := by rw [ack.records.2, ackMaxRecords]; omega
    rw [List.range'_succ, List.foldlM_cons, putRecord_eq (List.getElem?_eq_getElem hi), ok_bind,
      putRecords_eq n (i + 1) _ (by omega), List.drop_eq_getElem_cons hi, List.take_succ_cons, List.flatMap_cons, List.append_assoc]

theorem length_list {ack : Ack} (h : ack.count ≤ 32) : ack.list.length = ack.count := by
  rw [Ack.list, List.length_take, ack.records.2]
  exact Nat.min_eq_left h

theorem ackSerialize_eq_ok {ack : Ack} {cap : Nat} {out : Bytes} :
    ackSerialize ack cap = .ok out ↔ ack.count ≤ 32 ∧ 2 + 16 * ack.count ≤ cap ∧ out = encode ack.list := by
  rw [ackSerialize, failIf_bind_eq_ok, Nat.not_lt]
  refine and_congr_right fun hcount => ?_
  have hcount : ack.count ≤ 32 := hcount
  have hlist : (List.range ack.count).foldlM (putRecord ack) (beBytes 2 (ack.count * 16)) = .ok (encode ack.list) := by
    rw [List.range_eq_range', putRecords_eq _ _ _ (by omega), List.drop_zero, encode, vec, length_flatMap_recordBytes,
      length_list hcount, Nat.mul_comm]
    rfl
  dsimp only
  rw [failIf_bind_eq_ok, hlist, Nat.not_lt, Nat.mul_comm, Except.ok.injEq, eq_comm (b := out)]

/-! ## The parser -/

theorem getRecord_ok {buf rest : Bytes} {o : Ack} {i : Nat} {r : RecordNumber}
    (h : From buf (2 + 16 * i) (recordBytes r ++ rest)) (hi : i < 32) :
    ∃ a, getRecord buf o i = .ok a ∧ a.records.1 = o.records.1.set i r ∧ From buf (2 + 16 * (i + 1)) rest := by
  rw [recordBytes, List.append_assoc] at h
  obtain ⟨hepoch, h⟩ := getU64_ok h
  obtain ⟨hseq, h⟩ := getU64_ok h
  refine ⟨⟨⟨o.records.1.set i r, by rw [List.length_set, o.records.2]⟩, o.count⟩, ?_, rfl, h⟩
  rw [getRecord, hepoch, ok_bind, hseq, ok_bind, Ack.set, if_pos (show i < ackMaxRecords from hi)]

/-- The loop from record `i` on: the records are those in the buffer, and the ones behind them are kept. -/
theorem getRecords_ok {buf : Bytes} : ∀ (l : List RecordNumber) (i : Nat) (o : Ack) {rest : Bytes},
    From buf (2 + 16 * i) (l.flatMap recordBytes ++ rest) → i + l.length ≤ 32 →
    ∃ a, (List.range' i l.length).foldlM (getRecord buf) o = .ok a ∧
      a.records.1 = o.records.1.take i ++ (l ++ o.records.1.drop (i + l.length))
  | [], i, o, _, _, _ => ⟨o, rfl, by simp⟩
  | r :: l, i, o, rest, h, hle => by
    rw [List.length_cons] at hle ⊢
    rw [List.flatMap_cons, List.append_assoc] at h
    obtain ⟨a, ha, hrecords, h⟩ := getRecord_ok (o := o) h (by omega)
    obtain ⟨a', ha', hrecords'⟩ := getRecords_ok l (i + 1) a h (by omega)
    refine ⟨a', by rw [List.range'_succ, List.foldlM_cons, ha, ok_bind, ha'], ?_⟩
    have hi : i < o.records.1.length := by rw [o.records.2, ackMaxRecords]; omega
    rw [hrecords', hrecords, List.drop_set_of_lt (by omega), List.take_succ_eq_append_getElem (by rwa [List.length_set]),
      List.take_set_of_le (by omega), List.getElem_set_self, List.append_assoc, List.singleton_append, List.cons_append,
      show i + 1 + l.length = i + (l.length + 1) by omega]

theorem ackParse_encode {l : List RecordNumber} (o : Ack) (h : l.length ≤ 32) :
    ∃ a, ackParse (encode l) o = .ok a ∧ a.count = l.length ∧ a.records.1 = l ++ o.records.1.drop l.length := by
  have hlen := length_flatMap_recordBytes l
  have hbuf : (encode l).length = 2 + 16 * l.length := by rw [encode, length_vec, hlen]
  have hfrom : From (encode l) 0 (beBytes 2 (16 * l.length) ++ (l.flatMap recordBytes ++ [])) := by
    rw [List.append_nil, ← hlen]
    exact Record.from_zero (encode l)
  obtain ⟨hlist, hfrom⟩ := hfrom.uint (by omega)
  obtain ⟨a, ha, hrecords⟩ := getRecords_ok l 0 o hfrom (by omega)
  refine ⟨{ a with count := l.length }, ?_, rfl, by simpa using hrecords⟩
  rw [ackParse, failIf_bind (by omega), hlist, ok_bind]
  dsimp only
  rw [failIf_bind (by omega), failIf_bind (by omega), Nat.mul_div_cancel_left _ (by decide), failIf_bind (by rw [ackMaxRecords]; omega),
    List.range_eq_range', ha]
  rfl

theorem exists_encode {buf : Bytes} {o a : Ack} (h : ackParse buf o = .ok a) :
    ∃ l : List RecordNumber, l.length ≤ 32 ∧ buf = encode l := by
  simp only [ackParse, bind_eq_ok, failIf_eq_ok, exists_const, Nat.not_lt, not_not] at h
  obtain ⟨-, listLen, hlist, hlen, hmod, hmax, -⟩ := h
  obtain ⟨rest, hbuf, hlt, -⟩ := (Record.from_zero buf).of_uint hlist
  have hrest : rest.length = listLen := by
    rw [hbuf, List.length_append, length_beBytes] at hlen
    omega
  obtain ⟨l, hl, rfl⟩ := exists_records (listLen / 16) (b := rest) (by omega)
  refine ⟨l, hl ▸ hmax, ?_⟩
  rw [hbuf, encode, vec, hrest]

/-! ## Both -/

theorem list_eq {a : Ack} {l rest : List RecordNumber} (hcount : a.count = l.length) (hrecords : a.records.1 = l ++ rest) :
    a.list = l := by
  rw [Ack.list, hcount, hrecords, List.take_left]

/-- Every list of at most 32 records is that of an `nd_ack`. -/
theorem exists_ack {l : List RecordNumber} (h : l.length ≤ 32) : ∃ ack : Ack, ack.count = l.length ∧ ack.list = l := by
  have hlen : (l ++ List.replicate (32 - l.length) (⟨0, 0⟩ : RecordNumber)).length = ackMaxRecords := by
    rw [List.length_append, List.length_replicate, ackMaxRecords]
    omega
  exact ⟨⟨⟨_, hlen⟩, l.length⟩, rfl, list_eq rfl rfl⟩

/-- What is written for at most 32 records is read back as these, into any `nd_ack`. What is read was written, for the
records that are returned. -/
theorem ack_codec :
    (∀ (ack o : Ack) (cap : Nat), ack.count ≤ 32 → 2 + 16 * ack.count ≤ cap →
      ∃ buf a, ackSerialize ack cap = .ok buf ∧ ackParse buf o = .ok a ∧ a.count = ack.count ∧ a.list = ack.list) ∧
    (∀ (buf : Bytes) (o : Ack), ((∃ a, ackParse buf o = .ok a) ↔ ∃ ack cap, ackSerialize ack cap = .ok buf) ∧
      ∀ a ack cap, ackParse buf o = .ok a → ackSerialize ack cap = .ok buf → a.count = ack.count ∧ a.list = ack.list) := by
  have hparse (ack o : Ack) (h : ack.count ≤ 32) :
      ∃ a, ackParse (encode ack.list) o = .ok a ∧ a.count = ack.count ∧ a.list = ack.list := by
    have hlen := length_list h
    obtain ⟨a, ha, hcount, hrecords⟩ := ackParse_encode o (l := ack.list) (by omega)
    exact ⟨a, ha, hcount.trans hlen, list_eq hcount hrecords⟩
  refine ⟨?_, ?_⟩
  · intro ack o cap hcount hcap
    obtain ⟨a, ha, hlist⟩ := hparse ack o hcount
    exact ⟨encode ack.list, a, ackSerialize_eq_ok.mpr ⟨hcount, hcap, rfl⟩, ha, hlist⟩
  · intro buf o
    refine ⟨⟨?_, ?_⟩, ?_⟩
    · rintro ⟨a, ha⟩
      obtain ⟨l, hl, rfl⟩ := exists_encode ha
      obtain ⟨ack, hcount, rfl⟩ := exists_ack hl
      exact ⟨ack, _, ackSerialize_eq_ok.mpr ⟨by omega, le_rfl, rfl⟩⟩
    · rintro ⟨ack, cap, h⟩
      obtain ⟨hcount, -, rfl⟩ := ackSerialize_eq_ok.mp h
      obtain ⟨a, ha, -⟩ := hparse ack o hcount
      exact ⟨a, ha⟩
    · intro a ack cap ha h
      obtain ⟨hcount, -, rfl⟩ := ackSerialize_eq_ok.mp h
      obtain ⟨a', ha', hlist⟩ := hparse ack o hcount
      obtain rfl := Except.ok.inj (ha.symm.trans ha')
      exact hlist

theorem ack_codec_full : ∃ (buf : Bytes) (a : Ack), ackSerialize ⟨⟨List.replicate 32 ⟨2, 7⟩, rfl⟩, 32⟩ 514 = .ok buf ∧
    ackParse buf ⟨⟨List.replicate 32 ⟨0, 0⟩, rfl⟩, 0⟩ = .ok a ∧ a.count = 32 ∧ a.list = List.replicate 32 ⟨2, 7⟩ :=
  ack_codec.1 ⟨⟨List.replicate 32 ⟨2, 7⟩, rfl⟩, 32⟩ ⟨⟨List.replicate 32 ⟨0, 0⟩, rfl⟩, 0⟩ 514 (by decide) (by decide)

end ND.Proof.Ack
