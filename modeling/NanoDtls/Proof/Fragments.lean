import NanoDtls.Proof.Reassembly

/-!
# Any fragments

What `nd_reassembly_add_fragment` does with a header of any three 32-bit
fields (`addFragment_cases`): it fails and changes nothing, or copies the
fragment inside the message, or, where the sum of offset and length wraps
around, outside of every buffer. So all calls of a run stay inside the message
if and only if none of them wraps around and proceeds (`calls_inside_iff`).
A fragment that is accepted overwrites what was received before: a position
has the byte of the last one that covers it (`received_overwritten`).
-/

namespace ND.Proof.Reassembly

open ND.Impl Handshake Reassembly
open Spec.Reassembly

/-! ## One call -/

/-- The arguments are in the range of their types: fields of 32 bits, and as many bytes as the header says. -/
structure WellTyped (c : Call) : Prop where
  length_lt : c.hdr.length < 2 ^ 32
  offset_lt : c.hdr.fragmentOffset < 2 ^ 32
  fragmentLength_lt : c.hdr.fragmentLength < 2 ^ 32
  bytes : c.hdr.fragmentLength ≤ c.fragment.length

/-- No check fails, with the sum of the offset and the length as the code computes it. -/
def Proceeds (r : Reassembly) (hdr : HandshakeHdr) : Prop :=
  hdr.length ≤ reassemblyMaxLen ∧ (hdr.fragmentOffset + hdr.fragmentLength) % 2 ^ 32 ≤ hdr.length ∧
    (r.inProgress = true → hdr.msgType = r.msgType ∧ hdr.messageSeq = r.messageSeq ∧ hdr.length = r.totalLen)

/-- The marks when a fragment is copied: those of the first one start anew. -/
def marksBefore (r : Reassembly) (hdr : HandshakeHdr) : Bytes :=
  if r.inProgress then r.received.1 else patch r.received.1 0 (List.replicate hdr.length 0)

/-- `r'` is `r` after the fragment was copied. -/
structure Stored (r : Reassembly) (c : Call) (r' : Reassembly) : Prop where
  inProgress : r'.inProgress = true
  known : r.inProgress = false ∨ r.totalLenKnown = true → r'.totalLenKnown = true
  msgType : r'.msgType = c.hdr.msgType
  messageSeq : r'.messageSeq = c.hdr.messageSeq
  totalLen : r'.totalLen = c.hdr.length
  buf : r'.buf.1 = patch r.buf.1 c.hdr.fragmentOffset (c.fragment.take c.hdr.fragmentLength)
  received : r'.received.1 = patch (marksBefore r c.hdr) c.hdr.fragmentOffset (List.replicate c.hdr.fragmentLength 1)

variable {r : Reassembly} {c : Call}

theorem patch_nil {α : Type} (l : List α) (i : Nat) : patch l i [] = l := by
  rw [patch, List.append_nil, List.length_nil, Nat.add_zero, List.take_append_drop]

theorem readSlice_fragment (hc : WellTyped c) :
    readSlice c.fragment 0 c.hdr.fragmentLength = .ok (c.fragment.take c.hdr.fragmentLength) := by
  have hbytes := hc.bytes
  rw [readSlice, if_pos (by omega), List.drop_zero]

theorem length_take_fragment (hc : WellTyped c) : (c.fragment.take c.hdr.fragmentLength).length = c.hdr.fragmentLength := by
  have hbytes := hc.bytes
  rw [List.length_take]
  omega

/-- The copy of a fragment inside the buffer. -/
theorem storeFragment_inside (r : Reassembly) (hc : WellTyped c)
    (hle : c.hdr.fragmentOffset + c.hdr.fragmentLength ≤ reassemblyMaxLen) :
    ∃ buf received : BytesN reassemblyMaxLen, storeFragment r c.hdr c.fragment = .ok { r with buf := buf, received := received } ∧
      buf.1 = patch r.buf.1 c.hdr.fragmentOffset (c.fragment.take c.hdr.fragmentLength) ∧
      received.1 = patch r.received.1 c.hdr.fragmentOffset (List.replicate c.hdr.fragmentLength 1) := by
  have hlen := length_take_fragment hc
  unfold Reassembly.storeFragment
  by_cases h0 : c.hdr.fragmentLength = 0
  · rw [if_pos h0, h0, List.take_zero, List.replicate_zero, patch_nil, patch_nil]
    exact ⟨r.buf, r.received, rfl, rfl, rfl⟩
  · rw [if_neg h0, readSlice_fragment hc, ok_bind]
    obtain ⟨buf, hbuf, hbufEq⟩ := writeAt_eq r.buf (show c.hdr.fragmentOffset + _ ≤ reassemblyMaxLen by rw [hlen]; exact hle)
    obtain ⟨received, hreceived, hreceivedEq⟩ := writeAt_eq r.received
      (show c.hdr.fragmentOffset + (List.replicate c.hdr.fragmentLength (1 : Byte)).length ≤ reassemblyMaxLen by
        rw [List.length_replicate]; exact hle)
    refine ⟨buf, received, ?_, hbufEq, hreceivedEq⟩
    rw [hbuf, ok_bind, hreceived]
    rfl

/-- A copy that leaves the buffer. -/
theorem storeFragment_outside (r : Reassembly) (hc : WellTyped c)
    (hlt : reassemblyMaxLen < c.hdr.fragmentOffset + c.hdr.fragmentLength) (h0 : c.hdr.fragmentLength ≠ 0) :
    storeFragment r c.hdr c.fragment = .error .ub := by
  have hlen := length_take_fragment hc
  rw [Reassembly.storeFragment, if_neg h0, readSlice_fragment hc, ok_bind, writeAt, dif_neg (by rw [hlen]; omega)]
  rfl

/-- The start of a message that fits the buffer. -/
theorem startMessage_eq (r : Reassembly) {hdr : HandshakeHdr} (hle : hdr.length ≤ reassemblyMaxLen) :
    ∃ received : BytesN reassemblyMaxLen, received.1 = patch r.received.1 0 (List.replicate hdr.length 0) ∧
      startMessage r hdr = .ok { r with msgType := hdr.msgType, messageSeq := hdr.messageSeq, totalLen := hdr.length
                                        totalLenKnown := true, inProgress := true, received := received } := by
  obtain ⟨received, hreceived, hreceivedEq⟩ := writeAt_eq r.received
    (show 0 + (List.replicate hdr.length (0 : Byte)).length ≤ reassemblyMaxLen by rw [List.length_replicate]; omega)
  exact ⟨received, hreceivedEq, by rw [startMessage, hreceived, ok_bind]; rfl⟩

/-- A header that a check rejects. -/
theorem addFragment_rejected (h : ¬ Proceeds r c.hdr) :
    ∃ st, (st = Status.badLength ∨ st = Status.unsupported) ∧ reassemblyAddFragment r c.hdr c.fragment = (.error st, r) := by
  unfold reassemblyAddFragment
  by_cases hmax : reassemblyMaxLen < c.hdr.length
  · exact ⟨.badLength, .inl rfl, if_pos hmax⟩
  rw [if_neg hmax]
  by_cases hrange : c.hdr.length < (c.hdr.fragmentOffset + c.hdr.fragmentLength) % 2 ^ 32
  · exact ⟨.badLength, .inl rfl, if_pos hrange⟩
  rw [if_neg hrange]
  -- what is left is a message in progress with another identity
  have hother : r.inProgress = true ∧
      ¬ (c.hdr.msgType = r.msgType ∧ c.hdr.messageSeq = r.messageSeq ∧ c.hdr.length = r.totalLen) := by
    by_contra hsame
    exact h ⟨Nat.not_lt.mp hmax, Nat.not_lt.mp hrange, fun hin => not_not.mp fun hno => hsame ⟨hin, hno⟩⟩
  rw [if_neg (by simp [hother.1])]
  by_cases hid : c.hdr.msgType ≠ r.msgType ∨ c.hdr.messageSeq ≠ r.messageSeq
  · exact ⟨.unsupported, .inr rfl, if_pos hid⟩
  rw [if_neg hid]
  exact ⟨.badLength, .inl rfl, if_pos fun htotal => hother.2 ⟨by tauto, by tauto, htotal⟩⟩

/-- A header that passes all checks: the message it starts or continues, and the copy of the fragment. -/
theorem addFragment_proceeds (h : Proceeds r c.hdr) : ∃ r₁ : Reassembly,
    reassemblyAddFragment r c.hdr c.fragment = r.commit (storeFragment r₁ c.hdr c.fragment) ∧ r₁.inProgress = true ∧
      (r.inProgress = false ∨ r.totalLenKnown = true → r₁.totalLenKnown = true) ∧ r₁.msgType = c.hdr.msgType ∧
      r₁.messageSeq = c.hdr.messageSeq ∧ r₁.totalLen = c.hdr.length ∧ r₁.buf = r.buf ∧ r₁.received.1 = marksBefore r c.hdr := by
  obtain ⟨hmax, hrange, hsame⟩ := h
  rw [reassemblyAddFragment, if_neg (Nat.not_lt.mpr hmax), if_neg (Nat.not_lt.mpr hrange), marksBefore]
  cases hin : r.inProgress with
  | false =>
    obtain ⟨received, hreceived, hstart⟩ := startMessage_eq r hmax
    rw [if_pos rfl, hstart, ok_bind, if_neg (by simp)]
    exact ⟨_, rfl, rfl, fun _ => rfl, rfl, rfl, rfl, rfl, hreceived⟩
  | true =>
    obtain ⟨htype, hseq, htotal⟩ := hsame hin
    rw [if_neg (by simp), if_neg (by simp [htype, hseq]), if_neg (fun hne => hne htotal), if_pos rfl]
    exact ⟨r, rfl, hin, fun hk => hk.resolve_left (by simp), htype.symm, hseq.symm, htotal.symm, rfl, rfl⟩

/-- All that a call can do: fail before it writes, copy its fragment inside the message, or leave the buffer
because the sum of offset and length wrapped around. -/
theorem addFragment_cases (r : Reassembly) (hc : WellTyped c) :
    (¬ Proceeds r c.hdr ∧ ∃ st, (st = Status.badLength ∨ st = Status.unsupported) ∧
      reassemblyAddFragment r c.hdr c.fragment = (.error st, r)) ∨
    (Proceeds r c.hdr ∧ c.hdr.fragmentOffset + c.hdr.fragmentLength ≤ c.hdr.length ∧
      ∃ r', reassemblyAddFragment r c.hdr c.fragment = (.ok (), r') ∧ Stored r c r') ∨
    (Proceeds r c.hdr ∧ 2 ^ 32 ≤ c.hdr.fragmentOffset + c.hdr.fragmentLength ∧
      reassemblyAddFragment r c.hdr c.fragment = (.error .ub, r)) := by
  by_cases hp : Proceeds r c.hdr
  · right
    obtain ⟨r₁, hadd, hin, hknown, htype, hseq, htotal, hbuf, hmarks⟩ := addFragment_proceeds hp
    have hmax := hp.1
    have hrange := hp.2.1
    by_cases hwrap : 2 ^ 32 ≤ c.hdr.fragmentOffset + c.hdr.fragmentLength
    · have hoffset := hc.offset_lt
      right
      refine ⟨hp, hwrap, ?_⟩
      rw [hadd, storeFragment_outside r₁ hc (by rw [reassemblyMaxLen]; omega) (by omega)]
      rfl
    · left
      rw [Nat.mod_eq_of_lt (by omega)] at hrange
      obtain ⟨buf, received, hstore, hbufEq, hreceivedEq⟩ := storeFragment_inside r₁ hc (hrange.trans hmax)
      refine ⟨hp, hrange, { r₁ with buf := buf, received := received }, by rw [hadd, hstore]; rfl, hin, hknown, htype, hseq,
        htotal, ?_, ?_⟩
      · rw [← hbuf]
        exact hbufEq
      · rw [← hmarks]
        exact hreceivedEq
  · exact .inl ⟨hp, addFragment_rejected hp⟩

/-! ## Writes inside the message -/

/-- The call succeeds with a fragment inside a message that fits, and writes nothing from the end of the message
on; or it fails with one of two errors. -/
def StaysInside (r : Reassembly) (c : Call) : Prop :=
  let after := reassemblyAddFragment r c.hdr c.fragment
  (after.1 = .ok () ∧ c.hdr.fragmentOffset + c.hdr.fragmentLength ≤ c.hdr.length ∧ c.hdr.length ≤ reassemblyMaxLen ∧
    after.2.totalLen = c.hdr.length ∧
    ∀ k, after.2.totalLen ≤ k → after.2.buf.1[k]? = r.buf.1[k]? ∧ after.2.received.1[k]? = r.received.1[k]?) ∨
  after.1 = .error .badLength ∨ after.1 = .error .unsupported

theorem length_marksBefore (r : Reassembly) {hdr : HandshakeHdr} (hmax : hdr.length ≤ reassemblyMaxLen) :
    (marksBefore r hdr).length = reassemblyMaxLen := by
  rw [marksBefore]
  split
  · exact r.received.2
  · rw [length_patch (by rw [List.length_replicate, r.received.2]; omega), r.received.2]

/-- The marks that start anew are those of the message. -/
theorem marksBefore_of_le (r : Reassembly) {hdr : HandshakeHdr} (hmax : hdr.length ≤ reassemblyMaxLen) {k : Nat}
    (hk : hdr.length ≤ k) : (marksBefore r hdr)[k]? = r.received.1[k]? := by
  rw [marksBefore]
  split
  · rfl
  · rw [getElem?_patch_of_not_mem]
    · rw [List.length_replicate, r.received.2]
      omega
    · rw [List.length_replicate]
      omega

/-- A fragment of the message writes inside of it. -/
theorem Stored.outside {r' : Reassembly} (h : Stored r c r') (hc : WellTyped c)
    (hrange : c.hdr.fragmentOffset + c.hdr.fragmentLength ≤ c.hdr.length) (hmax : c.hdr.length ≤ reassemblyMaxLen) {k : Nat}
    (hk : c.hdr.length ≤ k) : r'.buf.1[k]? = r.buf.1[k]? ∧ r'.received.1[k]? = r.received.1[k]? := by
  have hlen := length_take_fragment hc
  constructor
  · rw [h.buf, getElem?_patch_of_not_mem]
    · rw [hlen, r.buf.2]
      omega
    · rw [hlen]
      omega
  · rw [h.received, getElem?_patch_of_not_mem, marksBefore_of_le r hmax hk]
    · rw [List.length_replicate, length_marksBefore r hmax]
      omega
    · rw [List.length_replicate]
      omega

theorem staysInside_iff (r : Reassembly) (hc : WellTyped c) :
    StaysInside r c ↔ ¬ (Proceeds r c.hdr ∧ 2 ^ 32 ≤ c.hdr.fragmentOffset + c.hdr.fragmentLength) := by
  unfold StaysInside
  obtain ⟨hno, st, hst, hadd⟩ | ⟨hp, hrange, r', hadd, hstored⟩ | ⟨hp, hwrap, hadd⟩ := addFragment_cases r hc
  · rw [hadd]
    refine iff_of_true (.inr ?_) fun h => hno h.1
    rcases hst with rfl | rfl
    · exact .inl rfl
    · exact .inr rfl
  · rw [hadd]
    have hmax := hp.1
    refine iff_of_true (.inl ⟨rfl, hrange, hmax, hstored.totalLen, ?_⟩) fun h => ?_
    · intro k hk
      exact hstored.outside hc hrange hmax (by rwa [← hstored.totalLen])
    · rw [reassemblyMaxLen] at hmax
      omega
  · rw [hadd]
    refine iff_of_false ?_ (not_not.mpr ⟨hp, hwrap⟩)
    rintro (⟨h, -⟩ | h | h) <;> cases h

/-- In a run from a fresh state, every call stays inside the message if and only if no call that passes the checks has
a sum of offset and length that does not fit 32 bits. -/
theorem calls_inside_iff (r : Reassembly) (calls : List Call) (hcalls : ∀ c ∈ calls, WellTyped c) :
    (∀ before c after, calls = before ++ c :: after → StaysInside (runCalls (reassemblyInit r) before) c) ↔
      ∀ before c after, calls = before ++ c :: after →
        ¬ (Proceeds (runCalls (reassemblyInit r) before) c.hdr ∧ 2 ^ 32 ≤ c.hdr.fragmentOffset + c.hdr.fragmentLength) := by
  have hiff : ∀ before c after, calls = before ++ c :: after →
      (StaysInside (runCalls (reassemblyInit r) before) c ↔
        ¬ (Proceeds (runCalls (reassemblyInit r) before) c.hdr ∧
          2 ^ 32 ≤ c.hdr.fragmentOffset + c.hdr.fragmentLength)) := by
    rintro before c after rfl
    exact staysInside_iff _ (hcalls c (by simp))
  constructor
  · intro h before c after heq
    exact (hiff before c after heq).mp (h before c after heq)
  · intro h before c after heq
    exact (hiff before c after heq).mpr (h before c after heq)

/-- Memory before `nd_reassembly_init`. -/
def blank : Reassembly := ⟨zeros _, zeros _, 0, false, 0, 0, false⟩

theorem calls_inside_iff_sample : StaysInside (reassemblyInit blank) ⟨⟨11, 4, 0, 2, 2⟩, [3, 4]⟩ := by
  refine (calls_inside_iff blank [⟨⟨11, 4, 0, 2, 2⟩, [3, 4]⟩] ?_).mpr ?_ [] _ [] rfl
  · intro c hc
    obtain rfl := List.mem_singleton.mp hc
    exact ⟨by decide, by decide, by decide, by decide⟩
  · intro before c after heq
    have hc : c ∈ [⟨⟨11, 4, 0, 2, 2⟩, [3, 4]⟩] := heq ▸ List.mem_append_right before List.mem_cons_self
    obtain rfl := List.mem_singleton.mp hc
    exact fun h => absurd h.2 (by decide)

/-- A fragment of two bytes at offset `2^32 - 1` of a message of four bytes: the sum is 1, and the copy starts far
outside of the buffer. -/
def wrappedCall : Call := ⟨⟨11, 4, 0, 0xFFFFFFFF, 2⟩, [1, 2]⟩

theorem wrapped_call_outside : WellTyped wrappedCall ∧
    (reassemblyAddFragment (reassemblyInit blank) wrappedCall.hdr wrappedCall.fragment).1 = .error .ub ∧
    ¬ StaysInside (reassemblyInit blank) wrappedCall := by
  have hub : (reassemblyAddFragment (reassemblyInit blank) wrappedCall.hdr wrappedCall.fragment).1 = .error .ub := by
    decide +kernel
  refine ⟨⟨by decide, by decide, by decide, by decide⟩, hub, ?_⟩
  rw [StaysInside, hub]
  rintro (⟨h, -⟩ | h | h) <;> cases h

/-! ## Bytes that are received twice -/

/-- The position is marked. -/
def Received (r : Reassembly) (k : Nat) : Prop := k < reassemblyMaxLen ∧ r.received.1[k]? ≠ some 0

/-- The call brings a fragment of the message in progress, whatever its bytes are. -/
def Belongs (r : Reassembly) (c : Call) : Prop :=
  c.hdr.msgType = r.msgType ∧ c.hdr.messageSeq = r.messageSeq ∧ c.hdr.length = r.totalLen ∧
    c.hdr.fragmentOffset + c.hdr.fragmentLength ≤ r.totalLen

instance (r : Reassembly) (c : Call) : Decidable (Belongs r c) := inferInstanceAs (Decidable (_ ∧ _ ∧ _ ∧ _))

/-- The byte of a fragment for a position of the message, if the fragment covers it. -/
def Call.byteAt (c : Call) (k : Nat) : Option Byte :=
  if c.hdr.fragmentOffset ≤ k ∧ k < c.hdr.fragmentOffset + c.hdr.fragmentLength then c.fragment[k - c.hdr.fragmentOffset]?
  else none

/-- The byte at position `k` after some calls, if it was `b` before: that of the last fragment of the message that
covers the position. -/
def lastByte (r : Reassembly) (k : Nat) (b : Option Byte) (calls : List Call) : Option Byte :=
  calls.foldl (fun b c => if Belongs r c then (Call.byteAt c k).or b else b) b

/-- The states have the same message in progress. -/
structure SameMessage (r r' : Reassembly) : Prop where
  inProgress : r'.inProgress = true
  known : r'.totalLenKnown = true
  msgType : r'.msgType = r.msgType
  messageSeq : r'.messageSeq = r.messageSeq
  totalLen : r'.totalLen = r.totalLen

theorem SameMessage.belongs {r r' : Reassembly} (h : SameMessage r r') : Belongs r' = Belongs r := by
  funext c
  rw [Belongs, Belongs, h.msgType, h.messageSeq, h.totalLen]

theorem SameMessage.lastByte {r r' : Reassembly} (h : SameMessage r r') : lastByte r' = lastByte r := by
  have hbelongs := h.belongs
  funext k b calls
  simp only [Reassembly.lastByte, hbelongs]

/-- A message in progress, as long as no sum wraps around: the fragments that belong to it are copied, all other
calls fail. -/
theorem addFragment_in_progress (hin : r.inProgress = true) (hmax : r.totalLen ≤ reassemblyMaxLen) (hc : WellTyped c)
    (hwrap : c.hdr.fragmentOffset + c.hdr.fragmentLength < 2 ^ 32) :
    (Belongs r c ∧ ∃ r', reassemblyAddFragment r c.hdr c.fragment = (.ok (), r') ∧ Stored r c r') ∨
    (¬ Belongs r c ∧ (reassemblyAddFragment r c.hdr c.fragment).2 = r) := by
  have hiff : Belongs r c ↔ Proceeds r c.hdr := by
    rw [Proceeds, Nat.mod_eq_of_lt hwrap]
    constructor
    · rintro ⟨htype, hseq, htotal, hrange⟩
      exact ⟨htotal ▸ hmax, htotal ▸ hrange, fun _ => ⟨htype, hseq, htotal⟩⟩
    · rintro ⟨-, hrange, hsame⟩
      obtain ⟨htype, hseq, htotal⟩ := hsame hin
      exact ⟨htype, hseq, htotal, htotal ▸ hrange⟩
  obtain ⟨hno, st, -, hadd⟩ | ⟨hp, -, hstored⟩ | ⟨-, hover, -⟩ := addFragment_cases r hc
  · exact .inr ⟨mt hiff.mp hno, by rw [hadd]⟩
  · exact .inl ⟨hiff.mpr hp, hstored⟩
  · omega

/-- A fragment that is copied keeps the marks, and its bytes are those of the positions it covers. -/
theorem Stored.bytes {r' : Reassembly} (h : Stored r c r') (hin : r.inProgress = true) (hc : WellTyped c)
    (hbelongs : Belongs r c) (hmax : r.totalLen ≤ reassemblyMaxLen) {k : Nat} (hk : Received r k) :
    Received r' k ∧ r'.buf.1[k]? = (Call.byteAt c k).or r.buf.1[k]? := by
  have hlen := length_take_fragment hc
  have hbytes := hc.bytes
  obtain ⟨-, -, -, hrange⟩ := hbelongs
  obtain ⟨hlt, hmark⟩ := hk
  have hmarks : c.hdr.fragmentOffset + (List.replicate c.hdr.fragmentLength (1 : Byte)).length ≤ r.received.1.length := by
    rw [List.length_replicate, r.received.2]
    omega
  have hdata : c.hdr.fragmentOffset + (c.fragment.take c.hdr.fragmentLength).length ≤ r.buf.1.length := by
    rw [hlen, r.buf.2]
    omega
  rw [Received, h.received, h.buf, marksBefore, hin, if_pos rfl, Call.byteAt]
  by_cases hcover : c.hdr.fragmentOffset ≤ k ∧ k < c.hdr.fragmentOffset + c.hdr.fragmentLength
  · rw [getElem?_patch_of_mem hmarks hcover.1 (by rw [List.length_replicate]; exact hcover.2), if_pos hcover,
      getElem?_patch_of_mem hdata hcover.1 (by rw [hlen]; exact hcover.2), List.getElem?_take_of_lt (by omega),
      List.getElem?_replicate, if_pos (by omega), List.getElem?_eq_getElem (by omega)]
    exact ⟨⟨hlt, by decide⟩, rfl⟩
  · rw [getElem?_patch_of_not_mem hmarks (by rwa [List.length_replicate]), if_neg hcover,
      getElem?_patch_of_not_mem hdata (by rwa [hlen])]
    exact ⟨⟨hlt, hmark⟩, rfl⟩

/-- The state before a run has a message in progress: it stays so, and what is received stays received, with the
byte of the last fragment. -/
theorem runCalls_in_progress : ∀ (calls : List Call) {r : Reassembly}, r.inProgress = true → r.totalLenKnown = true →
    r.totalLen ≤ reassemblyMaxLen →
    (∀ c ∈ calls, WellTyped c ∧ c.hdr.fragmentOffset + c.hdr.fragmentLength < 2 ^ 32) →
    SameMessage r (runCalls r calls) ∧
      ∀ k, Received r k → Received (runCalls r calls) k ∧ (runCalls r calls).buf.1[k]? = lastByte r k r.buf.1[k]? calls
  | [], r, hin, hknown, _, _ => ⟨⟨hin, hknown, rfl, rfl, rfl⟩, fun _ hk => ⟨hk, rfl⟩⟩
  | c :: calls, r, hin, hknown, hmax, hcalls => by
    obtain ⟨hc, hwrap⟩ := hcalls c List.mem_cons_self
    have hrest : ∀ d ∈ calls, WellTyped d ∧ d.hdr.fragmentOffset + d.hdr.fragmentLength < 2 ^ 32 :=
      fun d hd => hcalls d (List.mem_cons_of_mem _ hd)
    rw [runCalls, List.foldl_cons, ← runCalls]
    obtain ⟨hb, r', hadd, hstored⟩ | ⟨hb, hadd⟩ := addFragment_in_progress hin hmax hc hwrap
    · have hsame : SameMessage r r' := ⟨hstored.inProgress, hstored.known (.inr hknown), hstored.msgType.trans hb.1,
        hstored.messageSeq.trans hb.2.1, hstored.totalLen.trans hb.2.2.1⟩
      obtain ⟨hsame', hbytes⟩ := runCalls_in_progress calls hsame.inProgress hsame.known (by rw [hsame.totalLen]; exact hmax) hrest
      rw [hadd]
      refine ⟨⟨hsame'.inProgress, hsame'.known, hsame'.msgType.trans hsame.msgType, hsame'.messageSeq.trans hsame.messageSeq,
        hsame'.totalLen.trans hsame.totalLen⟩, fun k hk => ?_⟩
      obtain ⟨hk', hbyte⟩ := hstored.bytes hin hc hb hmax hk
      rw [lastByte, List.foldl_cons, if_pos hb, ← hbyte, ← lastByte, ← hsame.lastByte]
      exact hbytes k hk'
    · rw [hadd]
      obtain ⟨hsame', hbytes⟩ := runCalls_in_progress calls hin hknown hmax hrest
      refine ⟨hsame', fun k hk => ?_⟩
      rw [lastByte, List.foldl_cons, if_neg hb, ← lastByte]
      exact hbytes k hk

/-- Fragments that repeat the byte leave it. -/
theorem lastByte_eq {k : Nat} {b : Option Byte} : ∀ {calls : List Call},
    (∀ c ∈ calls, Belongs r c → ∀ b', Call.byteAt c k = some b' → b = some b') → lastByte r k b calls = b
  | [], _ => rfl
  | c :: calls, h => by
    have hbyte : (if Belongs r c then (Call.byteAt c k).or b else b) = b := by
      split
      · rename_i hc
        cases hb : Call.byteAt c k with
        | none => rfl
        | some b' => rw [h c List.mem_cons_self hc b' hb, Option.some_or]
      · rfl
    rw [lastByte, List.foldl_cons, hbyte]
    exact lastByte_eq fun d hd => h d (List.mem_cons_of_mem _ hd)

/-! ## From a fresh state -/

/-- Between two calls: nothing is marked unless a message is in progress, and that fits the buffer. -/
structure Consistent (r : Reassembly) : Prop where
  idle : r.inProgress = false → r.received = zeros _
  known : r.inProgress = true → r.totalLenKnown = true
  fits : r.inProgress = true → r.totalLen ≤ reassemblyMaxLen

theorem consistent_init (r : Reassembly) : Consistent (reassemblyInit r) := ⟨fun _ => rfl, nofun, nofun⟩

theorem Consistent.addFragment (h : Consistent r) (hc : WellTyped c) :
    Consistent (reassemblyAddFragment r c.hdr c.fragment).2 := by
  obtain ⟨-, st, -, hadd⟩ | ⟨hp, -, r', hadd, hstored⟩ | ⟨-, -, hadd⟩ := addFragment_cases r hc
  · rwa [hadd]
  · rw [hadd]
    refine ⟨fun hidle => ?_, fun _ => ?_, fun _ => ?_⟩
    · exact absurd (hstored.inProgress.symm.trans hidle) (by decide)
    · refine hstored.known ?_
      cases hin : r.inProgress with
      | false => exact .inl rfl
      | true => exact .inr (h.known hin)
    · exact hstored.totalLen.le.trans hp.1
  · rwa [hadd]

theorem consistent_runCalls : ∀ (calls : List Call) {r : Reassembly}, Consistent r → (∀ c ∈ calls, WellTyped c) →
    Consistent (runCalls r calls)
  | [], _, h, _ => h
  | c :: calls, _, h, hcalls => by
    rw [runCalls, List.foldl_cons, ← runCalls]
    exact consistent_runCalls calls (h.addFragment (hcalls c List.mem_cons_self)) fun d hd => hcalls d (List.mem_cons_of_mem _ hd)

theorem Consistent.inProgress (h : Consistent r) {k : Nat} (hk : Received r k) : r.inProgress = true := by
  cases hin : r.inProgress with
  | true => rfl
  | false =>
    refine absurd ?_ hk.2
    rw [h.idle hin, zeros, List.getElem?_replicate, if_pos hk.1]

theorem completeLoop_eq_true {received : Bytes} (n i : Nat) (hle : i + n ≤ received.length) :
    completeLoop received i n = .ok true ↔ ∀ k, i ≤ k → k < i + n → received[k]? ≠ some 0 := by
  obtain ⟨b, hloop, hb⟩ := completeLoop_eq n i hle
  rw [hloop, ← hb, Except.ok.injEq]

/-- A message is complete if it is in progress and every position of it is marked. -/
theorem isComplete_eq_true (h : Consistent r) :
    reassemblyIsComplete r = .ok true ↔ r.inProgress = true ∧ ∀ k < r.totalLen, Received r k := by
  rw [reassemblyIsComplete]
  cases hin : r.inProgress with
  | false => simp
  | true =>
    have hfits := h.fits hin
    rw [h.known hin, if_neg (by simp), completeLoop_eq_true _ _ (by rw [r.received.2]; omega)]
    constructor
    · intro hall
      exact ⟨rfl, fun k hk => ⟨by omega, hall k (Nat.zero_le k) (by omega)⟩⟩
    · rintro ⟨-, hall⟩ k - hk
      exact (hall k (by omega)).2

/-- In every run from a fresh state in which no sum of offset and length wraps around, a position that is received
stays so, and has the byte of the last fragment of the message that covers it. So it changes only by a fragment of
the same message with another byte for it. A complete message stays complete. -/
theorem received_overwritten (r : Reassembly) (before after : List Call)
    (hcalls : ∀ c ∈ before ++ after, WellTyped c ∧ c.hdr.fragmentOffset + c.hdr.fragmentLength < 2 ^ 32) :
    let r₁ := runCalls (reassemblyInit r) before
    let r₂ := runCalls r₁ after
    (∀ k, Received r₁ k → Received r₂ k ∧ r₂.buf.1[k]? = lastByte r₁ k r₁.buf.1[k]? after) ∧
    (∀ k, Received r₁ k →
      (∀ c ∈ after, Belongs r₁ c → ∀ b, Call.byteAt c k = some b → r₁.buf.1[k]? = some b) →
      r₂.buf.1[k]? = r₁.buf.1[k]?) ∧
    (reassemblyIsComplete r₁ = .ok true → reassemblyIsComplete r₂ = .ok true ∧ SameMessage r₁ r₂) := by
  intro r₁ r₂
  have h₁ : Consistent r₁ := consistent_runCalls before (consistent_init r) fun c hc => (hcalls c (List.mem_append_left _ hc)).1
  have h₂ : Consistent r₂ := consistent_runCalls after h₁ fun c hc => (hcalls c (List.mem_append_right _ hc)).1
  have hrun : r₁.inProgress = true → SameMessage r₁ r₂ ∧
      ∀ k, Received r₁ k → Received r₂ k ∧ r₂.buf.1[k]? = lastByte r₁ k r₁.buf.1[k]? after := fun hin =>
    runCalls_in_progress after hin (h₁.known hin) (h₁.fits hin) fun c hc => hcalls c (List.mem_append_right _ hc)
  refine ⟨?_, ?_, ?_⟩
  · intro k hk
    exact (hrun (h₁.inProgress hk)).2 k hk
  · intro k hk hsame
    rw [((hrun (h₁.inProgress hk)).2 k hk).2]
    exact lastByte_eq hsame
  · intro hcomplete
    obtain ⟨hin, hall⟩ := (isComplete_eq_true h₁).mp hcomplete
    obtain ⟨hsame, hbytes⟩ := hrun hin
    refine ⟨(isComplete_eq_true h₂).mpr ⟨hsame.inProgress, fun k hk => ?_⟩, hsame⟩
    exact (hbytes k (hall k (by rwa [hsame.totalLen] at hk))).1

/-- A message of one byte, and the same fragment with another byte. -/
def oneByte (b : Byte) : Call := ⟨⟨11, 1, 0, 0, 1⟩, [b]⟩

/-- A complete message is overwritten by a second fragment with other contents. -/
theorem complete_overwritten :
    reassemblyIsComplete (runCalls (reassemblyInit blank) [oneByte 1]) = .ok true ∧
    (runCalls (reassemblyInit blank) [oneByte 1]).buf.1[0]? = some 1 ∧
    (runCalls (runCalls (reassemblyInit blank) [oneByte 1]) [oneByte 2]).buf.1[0]? = some 2 := by
  decide +kernel

/-- After the second fragment the message is still complete, with the other contents. -/
theorem received_overwritten_sample :
    reassemblyIsComplete (runCalls (runCalls (reassemblyInit blank) [oneByte 1]) [oneByte 2]) = .ok true ∧
    (runCalls (runCalls (reassemblyInit blank) [oneByte 1]) [oneByte 2]).buf.1[0]? = some 2 := by
  have hone : ∀ c ∈ [oneByte 1] ++ [oneByte 2], WellTyped c ∧ c.hdr.fragmentOffset + c.hdr.fragmentLength < 2 ^ 32 := by
    intro c hc
    obtain rfl | rfl : c = oneByte 1 ∨ c = oneByte 2 := by simpa using hc
    all_goals exact ⟨⟨by decide, by decide, by decide, by decide⟩, by decide⟩
  obtain ⟨hbytes, -, hcomplete⟩ := received_overwritten blank [oneByte 1] [oneByte 2] hone
  have hreceived : Received (runCalls (reassemblyInit blank) [oneByte 1]) 0 := ⟨by decide, by decide +kernel⟩
  exact ⟨(hcomplete (by decide +kernel)).1, (hbytes 0 hreceived).2.trans (by decide +kernel)⟩

end ND.Proof.Reassembly
