import NanoDtls.Framework.Coverage
import NanoDtls.Proof.Span
import NanoDtls.Spec.Reassembly

/-!
# Reassembly is independent of the order

The state represents a message and the positions of it that were received
(`Represents`). A fragment adds its positions (`addFragment_fragment`), and a
call with another header changes nothing (`addFragment_foreign`), so after
any calls the positions are those that the calls cover (`represents_run`).
-/

namespace ND.Proof.Reassembly

open ND.Impl Handshake Reassembly
open Spec.Reassembly

/-- The state has the message in progress, and the bytes of it at the positions `S`. -/
structure Represents (m : Message) (S : Set Nat) (r : Reassembly) : Prop where
  inProgress : r.inProgress = true
  known : r.totalLenKnown = true
  msgType : r.msgType = m.msgType
  messageSeq : r.messageSeq = m.messageSeq
  totalLen : r.totalLen = m.body.length
  marked : Marked 0 1 r.received.1 S
  agrees : AgreesOn r.buf.1 m.body S

/-! ## One call -/

theorem writeAt_eq {n : Nat} (buf : BytesN n) {off : Nat} {data : Bytes} (h : off + data.length ≤ n) :
    ∃ buf' : BytesN n, writeAt buf off data = .ok buf' ∧ buf'.1 = patch buf.1 off data := by
  rw [writeAt, dif_pos h]
  exact ⟨_, rfl, rfl⟩

variable {m : Message} {S : Set Nat} {r : Reassembly} {c : Call}

/-- A fragment is copied to its positions. -/
theorem storeFragment_fragment (h : Represents m S r) (hc : IsFragment m c) :
    ∃ r', storeFragment r c.hdr c.fragment = .ok r' ∧ Represents m (S ∪ c.window) r' := by
  have hfits := m.fits
  have hrange := hc.range
  unfold Reassembly.storeFragment
  by_cases h0 : c.hdr.fragmentLength = 0
  · rw [if_pos h0]
    have hempty : c.window = ∅ := by
      rw [Call.window, h0, Nat.add_zero]
      exact Set.Ico_self _
    exact ⟨r, rfl, by rwa [hempty, Set.union_empty]⟩
  · rw [if_neg h0]
    -- the bytes of the fragment are a slice of the message
    have hslice : Slice m.body c.hdr.fragmentOffset (c.fragment.take c.hdr.fragmentLength) := by
      rw [hc.bytes]
      exact slice_take_drop hrange
    have hlen : (c.fragment.take c.hdr.fragmentLength).length = c.hdr.fragmentLength := by
      rw [hc.bytes, List.length_take, List.length_drop]
      omega
    have hread : readSlice c.fragment 0 c.hdr.fragmentLength = .ok (c.fragment.take c.hdr.fragmentLength) := by
      rw [List.length_take] at hlen
      rw [readSlice, if_pos (by omega), List.drop_zero]
    have hmarks : c.hdr.fragmentOffset + (List.replicate c.hdr.fragmentLength (1 : Byte)).length ≤ reassemblyMaxLen := by
      rw [List.length_replicate]
      omega
    obtain ⟨buf, hbuf, hbufEq⟩ := writeAt_eq r.buf (show c.hdr.fragmentOffset + _ ≤ reassemblyMaxLen by rw [hlen]; omega)
    obtain ⟨received, hreceived, hreceivedEq⟩ := writeAt_eq r.received hmarks
    refine ⟨{ r with buf := buf, received := received }, ?_, { h with marked := ?_, agrees := ?_ }⟩
    · rw [hread, ok_bind, hbuf, ok_bind, hreceived]
      rfl
    · rw [hreceivedEq]
      exact h.marked.patch (by rw [r.received.2]; omega)
    · have hagrees := h.agrees.patch hslice (by rw [r.buf.2]; omega)
      rwa [hlen, ← hbufEq] at hagrees

/-- The end of a fragment does not wrap around. -/
theorem fragment_sum (hc : IsFragment m c) :
    (c.hdr.fragmentOffset + c.hdr.fragmentLength) % 2 ^ 32 = c.hdr.fragmentOffset + c.hdr.fragmentLength := by
  have hfits := m.fits
  have hrange := hc.range
  rw [reassemblyMaxLen] at hfits
  exact Nat.mod_eq_of_lt (by omega)

/-- A fragment of the message in progress is accepted. -/
theorem addFragment_fragment (h : Represents m S r) (hc : IsFragment m c) :
    ∃ r', reassemblyAddFragment r c.hdr c.fragment = (.ok (), r') ∧ Represents m (S ∪ c.window) r' := by
  have hfits := m.fits
  have hrange := hc.range
  have hlength := hc.length
  obtain ⟨r', hstore, hr'⟩ := storeFragment_fragment h hc
  refine ⟨r', ?_, hr'⟩
  have hsame : ¬ (c.hdr.msgType ≠ r.msgType ∨ c.hdr.messageSeq ≠ r.messageSeq) := by
    rw [h.msgType, h.messageSeq]
    rintro (hne | hne)
    · exact hne hc.msgType
    · exact hne hc.messageSeq
  rw [reassemblyAddFragment, if_neg (by omega), fragment_sum hc, if_neg (by omega), if_neg (by simp [h.inProgress]), if_neg hsame,
    if_neg (by rw [h.totalLen]; omega), hstore]
  rfl

/-- The state after the header of the first fragment. -/
theorem startMessage_fragment (r : Reassembly) (hc : IsFragment m c) :
    ∃ r', startMessage (reassemblyInit r) c.hdr = .ok r' ∧ Represents m ∅ r' := by
  have hfits := m.fits
  have hlength := hc.length
  have hmarks : 0 + (List.replicate c.hdr.length (0 : Byte)).length ≤ reassemblyMaxLen := by
    rw [List.length_replicate]
    omega
  obtain ⟨received, hreceived, hreceivedEq⟩ := writeAt_eq (reassemblyInit r).received hmarks
  refine ⟨_, by rw [startMessage, hreceived, ok_bind]; rfl, rfl, rfl, hc.msgType, hc.messageSeq, hlength, ?_, agreesOn_empty _ _⟩
  have hmarked := (marked_replicate (0 : Byte) 1 reassemblyMaxLen).clear (i := 0) (n := c.hdr.length)
    (by rw [List.length_replicate]; omega)
  rw [Set.empty_sdiff] at hmarked
  rw [hreceivedEq]
  exact hmarked

/-- The first fragment starts the message. -/
theorem addFragment_first (r : Reassembly) (hc : IsFragment m c) :
    ∃ r', reassemblyAddFragment (reassemblyInit r) c.hdr c.fragment = (.ok (), r') ∧ Represents m c.window r' := by
  have hfits := m.fits
  have hrange := hc.range
  have hlength := hc.length
  obtain ⟨r₁, hstart, hr₁⟩ := startMessage_fragment r hc
  obtain ⟨r₂, hstore, hr₂⟩ := storeFragment_fragment hr₁ hc
  rw [Set.empty_union] at hr₂
  refine ⟨r₂, ?_, hr₂⟩
  rw [reassemblyAddFragment, if_neg (by omega), fragment_sum hc, if_neg (by omega),
    if_pos (show (reassemblyInit r).inProgress = false from rfl), hstart, ok_bind, hstore]
  rfl

/-- A call with another header fails, and changes nothing. -/
theorem addFragment_foreign (h : Represents m S r) (hc : IsForeign m c) :
    ∃ st, st ≠ Status.ub ∧ reassemblyAddFragment r c.hdr c.fragment = (.error st, r) := by
  have hoff := hc.offset_lt
  have hlen := hc.length_lt
  have hsum : (c.hdr.fragmentOffset + c.hdr.fragmentLength) % 2 ^ 32 = c.hdr.fragmentOffset + c.hdr.fragmentLength :=
    Nat.mod_eq_of_lt (by omega)
  unfold reassemblyAddFragment
  rw [hsum, h.msgType, h.messageSeq, h.totalLen, h.inProgress]
  by_cases hmax : reassemblyMaxLen < c.hdr.length
  · exact ⟨.badLength, by decide, if_pos hmax⟩
  rw [if_neg hmax]
  by_cases hrange : c.hdr.length < c.hdr.fragmentOffset + c.hdr.fragmentLength
  · exact ⟨.badLength, by decide, if_pos hrange⟩
  rw [if_neg hrange, if_neg (by decide)]
  by_cases hid : c.hdr.msgType ≠ m.msgType ∨ c.hdr.messageSeq ≠ m.messageSeq
  · exact ⟨.unsupported, by decide, if_pos hid⟩
  rw [if_neg hid]
  -- the total length is all that is left to differ
  have htotal : c.hdr.length ≠ m.body.length := by
    rcases hc.other with hne | hne | hne | hlt
    · exact absurd (.inl hne) hid
    · exact absurd (.inr hne) hid
    · exact hne
    · exact absurd hlt hrange
  exact ⟨.badLength, by decide, if_pos htotal⟩

theorem not_isFragment_of_isForeign (h : IsForeign m c) : ¬ IsFragment m c := by
  intro hc
  have hrange := hc.range
  have hlength := hc.length
  rcases h.other with hne | hne | hne | hlt
  · exact hne hc.msgType
  · exact hne hc.messageSeq
  · exact hne hc.length
  · omega

/-! ## Any calls -/

/-- The state after some calls. -/
def runCalls (r : Reassembly) (calls : List Call) : Reassembly :=
  calls.foldl (fun r c => (reassemblyAddFragment r c.hdr c.fragment).2) r

/-- Whatever the calls after the first one are, the positions are those that the fragments cover. -/
theorem represents_runCalls : ∀ (calls : List Call) {S : Set Nat} {r : Reassembly}, Represents m S r →
    (∀ c ∈ calls, IsFragment m c ∨ IsForeign m c) → Represents m (S ∪ covered m calls) (runCalls r calls)
  | [], S, r, h, _ => by
    rw [covered_nil, Set.union_empty]
    exact h
  | c :: calls, S, r, h, hcalls => by
    have hrest : ∀ d ∈ calls, IsFragment m d ∨ IsForeign m d := fun d hd => hcalls d (List.mem_cons_of_mem _ hd)
    rw [runCalls, List.foldl_cons, ← runCalls]
    rcases hcalls c List.mem_cons_self with hc | hc
    · obtain ⟨r', hadd, hr'⟩ := addFragment_fragment h hc
      rw [hadd, covered_fragment calls hc, ← Set.union_assoc]
      exact represents_runCalls calls hr' hrest
    · obtain ⟨st, _, hadd⟩ := addFragment_foreign h hc
      rw [hadd, covered_other calls (not_isFragment_of_isForeign hc)]
      exact represents_runCalls calls h hrest

/-- The state after calls that start with a fragment of the message. -/
theorem represents_runCalls_init (r : Reassembly) {calls : List Call} (hc : IsFragment m c)
    (hcalls : ∀ d ∈ calls, IsFragment m d ∨ IsForeign m d) :
    Represents m (covered m (c :: calls)) (runCalls (reassemblyInit r) (c :: calls)) := by
  obtain ⟨r', hadd, hr'⟩ := addFragment_first r hc
  rw [covered_fragment calls hc, runCalls, List.foldl_cons, hadd]
  exact represents_runCalls calls hr' hcalls

/-! ## Completeness -/

/-- The loop ends, and finds whether every byte of the range is marked. -/
theorem completeLoop_eq {received : Bytes} : ∀ (n i : Nat), i + n ≤ received.length →
    ∃ b, completeLoop received i n = .ok b ∧ (b = true ↔ ∀ k, i ≤ k → k < i + n → received[k]? ≠ some 0)
  | 0, i, _ => ⟨true, rfl, iff_of_true rfl fun k hle hlt => by omega⟩
  | n + 1, i, hle => by
    have hget : received[i]? = some received[i] := List.getElem?_eq_getElem (by omega)
    rw [completeLoop, readAt, hget]
    simp only [ok_bind]
    by_cases h0 : received[i] = 0
    · rw [if_pos h0]
      refine ⟨false, rfl, iff_of_false Bool.false_ne_true fun hall => hall i le_rfl (by omega) ?_⟩
      rw [hget, h0]
    · obtain ⟨b, hloop, hb⟩ := completeLoop_eq n (i + 1) (show i + 1 + n ≤ received.length by omega)
      rw [if_neg h0]
      refine ⟨b, hloop, hb.trans ⟨fun hall k hk hlt => ?_, fun hall k hk hlt => hall k (by omega) (by omega)⟩⟩
      by_cases hki : k = i
      · rw [hki, hget]
        exact fun h => h0 (Option.some.inj h)
      · exact hall k (by omega) (by omega)

/-- The loop over the marks stops at the first position that is not in `S`. -/
theorem completeLoop_marked {received : Bytes} (h : Marked 0 1 received S) (n i : Nat) (hle : i + n ≤ received.length) :
    ∃ b, completeLoop received i n = .ok b ∧ (b = true ↔ ∀ k, i ≤ k → k < i + n → k ∈ S) := by
  obtain ⟨b, hloop, hb⟩ := completeLoop_eq n i hle
  refine ⟨b, hloop, hb.trans (forall_congr' fun k => imp_congr_right fun _ => forall_congr' fun hlt => ?_)⟩
  have hmark := h k (by omega)
  by_cases hk : k ∈ S
  · exact iff_of_true (by rw [hmark.1 hk]; decide) hk
  · exact iff_of_false (fun hne => hne (hmark.2 hk)) hk

theorem isComplete_iff (h : Represents m S r) :
    ∃ b, reassemblyIsComplete r = .ok b ∧ (b = true ↔ ∀ k < m.body.length, k ∈ S) := by
  have hfits := m.fits
  obtain ⟨b, hloop, hb⟩ := completeLoop_marked h.marked m.body.length 0 (by rw [r.received.2]; omega)
  refine ⟨b, ?_, hb.trans ⟨fun hall k hk => hall k (Nat.zero_le k) (by omega), fun hall k _ hk => hall k (by omega)⟩⟩
  rw [reassemblyIsComplete, if_neg (by simp [h.inProgress, h.known]), h.totalLen, hloop]

/-! ## Reassembly -/

/-- For every message that fits the buffer and all calls from a fresh state, of which the first brings a
fragment of the message and each other one a fragment of it or a header of something else: the fragments are
accepted, the other calls fail and change nothing; the marks are those of the positions that the fragments cover,
the buffer has the bytes of the message there, and the message is complete iff they are all of its positions.
Another order gives the same marks, and the same bytes there. -/
theorem reassembles (m : Message) (r : Reassembly) (first : Call) (rest : List Call) (hfirst : IsFragment m first)
    (hrest : ∀ c ∈ rest, IsFragment m c ∨ IsForeign m c) :
    let final := runCalls (reassemblyInit r) (first :: rest)
    (∀ before c after, first :: rest = before ++ c :: after →
      (IsFragment m c → (reassemblyAddFragment (runCalls (reassemblyInit r) before) c.hdr c.fragment).1 = .ok ()) ∧
      (IsForeign m c → ∃ st, st ≠ Status.ub ∧
        reassemblyAddFragment (runCalls (reassemblyInit r) before) c.hdr c.fragment =
          (.error st, runCalls (reassemblyInit r) before))) ∧
    (∀ k < reassemblyMaxLen, final.received.1[k]? ≠ some 0 ↔ k ∈ covered m (first :: rest)) ∧
    (∀ k ∈ covered m (first :: rest), final.buf.1[k]? = m.body[k]?) ∧
    (∃ b, reassemblyIsComplete final = .ok b ∧ (b = true ↔ ∀ k < m.body.length, k ∈ covered m (first :: rest))) ∧
    (∀ r' first' rest', (first' :: rest').Perm (first :: rest) → IsFragment m first' →
      let final' := runCalls (reassemblyInit r') (first' :: rest')
      final'.received = final.received ∧ ∀ k ∈ covered m (first :: rest), final'.buf.1[k]? = final.buf.1[k]?) := by
  have hfinal := represents_runCalls_init r hfirst hrest
  refine ⟨?_, ?_, hfinal.agrees, isComplete_iff hfinal, ?_⟩
  · intro before c after heq
    rcases before with _ | ⟨first', before⟩
    · cases heq
      obtain ⟨_, hadd, _⟩ := addFragment_first r hfirst
      refine ⟨fun _ => congrArg Prod.fst hadd, fun hforeign => absurd hfirst (not_isFragment_of_isForeign hforeign)⟩
    · obtain ⟨rfl, rfl⟩ := List.cons.inj heq
      have hbefore := represents_runCalls_init r hfirst fun d hd => hrest d (List.mem_append_left _ hd)
      refine ⟨fun hc => ?_, fun hc => addFragment_foreign hbefore hc⟩
      obtain ⟨_, hadd, _⟩ := addFragment_fragment hbefore hc
      exact congrArg Prod.fst hadd
  · intro k hk
    have hmark := hfinal.marked k (by rwa [BytesN.length_eq])
    by_cases hin : k ∈ covered m (first :: rest)
    · simp [hmark.1 hin, hin]
    · simp [hmark.2 hin, hin]
  · intro r' first' rest' hperm hfirst'
    have hrest' : ∀ c ∈ rest', IsFragment m c ∨ IsForeign m c := by
      intro c hc
      rcases List.mem_cons.mp (hperm.mem_iff.mp (List.mem_cons_of_mem _ hc)) with rfl | hc
      · exact .inl hfirst
      · exact hrest c hc
    have hfinal' := represents_runCalls_init r' hfirst' hrest'
    rw [covered_perm hperm] at hfinal'
    refine ⟨Subtype.ext (hfinal'.marked.ext hfinal.marked (by rw [BytesN.length_eq, BytesN.length_eq])), ?_⟩
    intro k hk
    rw [hfinal'.agrees k hk, hfinal.agrees k hk]

/-- A message in two fragments. -/
def sampleMessage : Message := ⟨11, 5, [1, 2, 3, 4, 5, 6], by decide⟩

def sampleEnd : Call := ⟨⟨11, 6, 5, 4, 2⟩, [5, 6]⟩

def sampleStart : Call := ⟨⟨11, 6, 5, 0, 4⟩, [1, 2, 3, 4]⟩

/-- A fragment with the number of the next message. -/
def sampleNext : Call := ⟨⟨11, 6, 6, 0, 1⟩, [9]⟩

/-- The end first, a fragment of the next message in between: the message is complete. -/
theorem reassembles_sample : IsFragment sampleMessage sampleEnd ∧ IsFragment sampleMessage sampleStart ∧
    IsForeign sampleMessage sampleNext ∧
    reassemblyIsComplete (runCalls (reassemblyInit ⟨zeros _, zeros _, 0, false, 0, 0, false⟩)
      [sampleEnd, sampleNext, sampleStart]) = .ok true := by
  have hend : IsFragment sampleMessage sampleEnd := ⟨rfl, rfl, rfl, by decide, by decide⟩
  have hstart : IsFragment sampleMessage sampleStart := ⟨rfl, rfl, rfl, by decide, by decide⟩
  have hnext : IsForeign sampleMessage sampleNext := ⟨by decide, by decide, by decide, by decide⟩
  have hrest : ∀ c ∈ [sampleNext, sampleStart], IsFragment sampleMessage c ∨ IsForeign sampleMessage c := by
    intro c hc
    rcases List.mem_pair.mp hc with rfl | rfl
    · exact .inr hnext
    · exact .inl hstart
  obtain ⟨b, hb, hall⟩ := (reassembles sampleMessage _ _ _ hend hrest).2.2.2.1
  refine ⟨hend, hstart, hnext, hb.trans (congrArg Except.ok (hall.mpr fun k hk => ?_))⟩
  have hlt : k < 6 := hk
  by_cases hk : k < 4
  · exact ⟨sampleStart, by simp, hstart, Nat.zero_le k, hk⟩
  · exact ⟨sampleEnd, by simp, hend, Nat.le_of_not_lt hk, hlt⟩

end ND.Proof.Reassembly
