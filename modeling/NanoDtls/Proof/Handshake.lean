import NanoDtls.Impl.Client
import NanoDtls.Proof.Parsers
import NanoDtls.Proof.Record
import NanoDtls.Proof.Transcript
import NanoDtls.Spec.KeySchedule
import NanoDtls.Spec.Wire

/-!
# Framing and keys

The Handshake header and the unencrypted record: the serializers write the
bytes of their fields (`handshakeSerialize_eq_ok`, `plaintextSerialize_eq_ok`)
and the parsers accept what begins with them (`handshakeParse_eq_ok`,
`plaintextParse_eq_ok`), so that one layer in the other is read back
(`framing_lossless`). Then parsers that never read outside their
input (`parsePlaintextHandshake_defined`), and the key schedule, which never
fails on the inputs the handshakes give it (`deriveHandshakeKeys_eq`,
`finishedCompute_eq`, `checkFinished_eq_ok`).
-/

namespace ND.Proof.Handshake

open ND.Impl Handshake Sha256 Client
open ND.Impl.Record (plaintextParse plaintextSerialize plaintextHdrLen PlaintextHdr)
open Spec.Wire Spec.KeySchedule Proof.Record Proof.Transcript

/-! ## Reads inside the buffer -/

theorem plaintextParse_ensures (buf : Bytes) : Ensures Status.ub (plaintextParse buf) fun _ => True := by
  apply ensures_failIf_bind (by decide)
  intro hlen
  simp only [plaintextHdrLen, Nat.not_lt] at hlen
  have huint (off n : Nat) (h : off + n ≤ 13) : Ensures Status.ub (beNat <$> readSlice buf off n) fun _ => True :=
    readUint_ensures (by omega)
  refine (readAt_ensures (by omega)).bind fun _ _ => ?_
  refine (huint 1 2 (by decide)).bind fun _ _ => ?_
  refine (huint 3 2 (by decide)).bind fun _ _ => ?_
  refine (huint 5 6 (by decide)).bind fun _ _ => ?_
  refine (huint 11 2 (by decide)).bind fun length _ => ?_
  apply ensures_failIf_bind (by decide)
  intro hfit
  exact (readSlice_ensures (by simp only [plaintextHdrLen] at hfit ⊢; omega)).bind fun _ _ => ensures_ok trivial

/-- A reply to the ClientHello is parsed without undefined behaviour. -/
theorem parsePlaintextHandshake_defined (datagram : Bytes) : Avoids Status.ub (parsePlaintextHandshake datagram) := by
  refine (plaintextParse_ensures datagram).1.bind fun _ _ => ?_
  apply avoids_failIf_bind (by decide)
  intro _
  exact (Parsers.handshakeParse_ensures _).1.bind fun _ _ => avoids_ok _

/-! ## The Handshake header -/

/-- The bytes of a header and a fragment. -/
def handshakeBytes (hdr : HandshakeHdr) (fragment : Bytes) : Bytes :=
  [hdr.msgType] ++ beBytes 3 hdr.length ++ beBytes 2 hdr.messageSeq ++ beBytes 3 hdr.fragmentOffset ++
    beBytes 3 hdr.fragmentLength ++ fragment

/-- The fields fit the wire, and the length of the fragment is right. -/
structure HandshakeFits (hdr : HandshakeHdr) (fragment : Bytes) : Prop where
  length : hdr.length < 256 ^ 3
  messageSeq : hdr.messageSeq < 256 ^ 2
  fragmentOffset : hdr.fragmentOffset < 256 ^ 3
  fragmentLength : hdr.fragmentLength < 256 ^ 3
  fragment : hdr.fragmentLength = fragment.length

theorem length_handshakeBytes (hdr : HandshakeHdr) (fragment : Bytes) :
    (handshakeBytes hdr fragment).length = 12 + fragment.length := by
  simp only [handshakeBytes, List.length_append, length_beBytes, List.length_singleton]

theorem handshakeSerialize_eq_ok {hdr : HandshakeHdr} {fragment out : Bytes} {cap : Nat}
    (hseq : hdr.messageSeq < 256 ^ 2) : handshakeSerialize hdr fragment cap = .ok out ↔
      HandshakeFits hdr fragment ∧ 12 + fragment.length ≤ cap ∧ out = handshakeBytes hdr fragment := by
  rw [handshakeSerialize, failIf_bind_eq_ok, failIf_bind_eq_ok, failIf_bind_eq_ok, pure_eq_ok, Except.ok.injEq, not_not,
    Nat.not_lt, handshakeHdrLen, eq_comm (b := out)]
  refine ⟨fun h => ?_, fun h => ?_⟩
  · obtain ⟨hfields, hfrag, hcap, hout⟩ := h
    exact ⟨⟨by omega, hseq, by omega, by omega, hfrag⟩, hcap, hout⟩
  · obtain ⟨⟨hlength, -, hoff, hlen, hfrag⟩, hcap, hout⟩ := h
    exact ⟨by omega, hfrag, hcap, hout⟩

/-- The parser accepts what begins with the bytes of a header and its fragment. -/
theorem handshakeParse_eq_ok {buf : Bytes} {hdr : HandshakeHdr} {fragment : Span} :
    handshakeParse buf = .ok (hdr, fragment) ↔ HandshakeFits hdr fragment.bytes ∧ fragment.off = 12 ∧
      ∃ rest, buf = handshakeBytes hdr fragment.bytes ++ rest := by
  simp only [handshakeParse, Span.sub, Span.ofBytes, bind_eq_ok, failIf_eq_ok, exists_const, pure_eq_ok, Except.ok.injEq,
    Prod.mk.injEq]
  simp only [handshakeHdrLen]
  refine ⟨fun h => ?_, fun h => ?_⟩
  · obtain ⟨-, _, h0, _, h1, _, h4, _, h6, _, h9, -, _, ⟨data, hfrag, rfl⟩, rfl, rfl⟩ := h
    obtain ⟨_, hbuf, h⟩ := (from_zero buf).of_byte h0
    obtain ⟨_, rfl, hlength, h⟩ := h.of_uint h1
    obtain ⟨_, rfl, hseq, h⟩ := h.of_uint h4
    obtain ⟨_, rfl, hoff, h⟩ := h.of_uint h6
    obtain ⟨_, rfl, hlen, h⟩ := h.of_uint h9
    obtain ⟨rest, rfl, hdata, -⟩ := h.of_slice hfrag
    refine ⟨⟨hlength, hseq, hoff, hlen, hdata.symm⟩, rfl, rest, ?_⟩
    rw [hbuf]
    simp only [handshakeBytes, List.append_assoc]
  · obtain ⟨hfits, hspan, rest, hbuf⟩ := h
    have hlen : buf.length = 12 + fragment.bytes.length + rest.length := by
      rw [hbuf, List.length_append, length_handshakeBytes]
    have h : From buf 0 _ := ⟨Nat.zero_le _, hbuf⟩
    simp only [handshakeBytes, List.append_assoc] at h
    obtain ⟨h0, h⟩ := h.byte
    obtain ⟨h1, h⟩ := h.uint hfits.length
    obtain ⟨h4, h⟩ := h.uint hfits.messageSeq
    obtain ⟨h6, h⟩ := h.uint hfits.fragmentOffset
    obtain ⟨h9, h⟩ := h.uint hfits.fragmentLength
    have h12 := h.slice hfits.fragment.symm
    exact ⟨by omega, _, h0, _, h1, _, h4, _, h6, _, h9, by rw [hlen, hfits.fragment]; omega, _, ⟨_, h12, rfl⟩, rfl,
      by rw [Nat.zero_add, ← hspan]⟩

theorem handshakeParse_serialize {hdr : HandshakeHdr} {fragment out : Bytes} {cap : Nat} (hseq : hdr.messageSeq < 256 ^ 2)
    (h : handshakeSerialize hdr fragment cap = .ok out) : handshakeParse out = .ok (hdr, ⟨12, fragment⟩) := by
  obtain ⟨hfits, -, rfl⟩ := (handshakeSerialize_eq_ok hseq).mp h
  exact handshakeParse_eq_ok.mpr ⟨hfits, rfl, [], (List.append_nil _).symm⟩

theorem handshakeSerialize_parse {hdr : HandshakeHdr} {fragment : Span} {buf : Bytes} {cap : Nat}
    (h : handshakeParse buf = .ok (hdr, fragment)) (hcap : 12 + fragment.len ≤ cap) :
    handshakeSerialize hdr fragment.bytes cap = .ok (buf.take (12 + fragment.len)) := by
  obtain ⟨hfits, -, rest, rfl⟩ := handshakeParse_eq_ok.mp h
  rw [Span.len, List.take_left' (length_handshakeBytes hdr fragment.bytes)]
  exact (handshakeSerialize_eq_ok hfits.messageSeq).mpr ⟨hfits, hcap, rfl⟩

/-- The header of an unfragmented message. -/
def header (msgType : Byte) (messageSeq len : Nat) : HandshakeHdr := ⟨msgType, len, messageSeq, 0, len⟩

theorem fits_header (msgType : Byte) {messageSeq : Nat} {body : Bytes} (hseq : messageSeq < 256 ^ 2)
    (hlen : body.length < 256 ^ 3) : HandshakeFits (header msgType messageSeq body.length) body :=
  ⟨hlen, hseq, Nat.pow_pos (by decide), hlen, rfl⟩

theorem length_handshake (msgType : Byte) (messageSeq : Nat) (body : Bytes) :
    (handshake msgType messageSeq body).length = 12 + body.length :=
  length_handshakeBytes (header msgType messageSeq body.length) body

theorem wrapAndAdd_eq (t : Transcript) (msgType : Byte) (messageSeq : Nat) {body : Bytes} {outCap : Nat}
    (hlen : body.length < 2 ^ 24) (hcap : 12 + body.length ≤ outCap) :
    wrapAndAdd t msgType messageSeq body outCap =
      .ok (handshake msgType messageSeq body, transcriptAdd t (handshake msgType messageSeq body)) := by
  simp only [wrapAndAdd, handshakeSerialize, Nat.mod_eq_of_lt (show body.length < 2 ^ 32 by omega)]
  rw [failIf_bind (by omega), failIf_bind (by omega), failIf_bind (by simp only [handshakeHdrLen]; omega)]
  rfl

/-- `nd_handshake_parse` of a message, with anything after it. -/
theorem handshakeParse_handshake (msgType : Byte) {messageSeq : Nat} {body : Bytes} (rest : Bytes)
    (hseq : messageSeq < 256 ^ 2) (hlen : body.length < 256 ^ 3) :
    handshakeParse (handshake msgType messageSeq body ++ rest) =
      .ok (header msgType messageSeq body.length, ⟨12, body⟩) :=
  handshakeParse_eq_ok.mpr ⟨fits_header msgType hseq hlen, rfl, rest, rfl⟩

theorem expectMessage_header (msgType : Byte) (messageSeq len : Nat) :
    expectMessage (header msgType messageSeq len) msgType = .ok () := by
  rw [expectMessage, failIf_bind (fun h => h rfl), failIf_neg _ (by simp [header])]

theorem expectMessage_eq_ok {hh : HandshakeHdr} {msgType : Byte} {u : Unit} :
    expectMessage hh msgType = .ok u ↔ hh.msgType = msgType ∧ hh.fragmentOffset = 0 ∧ hh.fragmentLength = hh.length := by
  rw [expectMessage, failIf_bind_eq_ok, failIf_eq_ok]
  tauto

/-! ## The unencrypted record -/

/-- The bytes of a header and a fragment. The length is that of the fragment, whatever the header says. -/
def plaintextBytes (hdr : PlaintextHdr) (fragment : Bytes) : Bytes :=
  [hdr.type] ++ beBytes 2 hdr.legacyVersion ++ beBytes 2 hdr.epoch ++ beBytes 6 hdr.sequenceNumber ++
    beBytes 2 fragment.length ++ fragment

/-- The fields fit the wire. -/
structure PlaintextFits (hdr : PlaintextHdr) (fragment : Bytes) : Prop where
  legacyVersion : hdr.legacyVersion < 256 ^ 2
  epoch : hdr.epoch < 256 ^ 2
  sequenceNumber : hdr.sequenceNumber < 256 ^ 6
  fragment : fragment.length < 256 ^ 2

theorem length_plaintextBytes (hdr : PlaintextHdr) (fragment : Bytes) :
    (plaintextBytes hdr fragment).length = 13 + fragment.length := by
  simp only [plaintextBytes, List.length_append, length_beBytes, List.length_singleton]

theorem plaintextSerialize_eq_ok {hdr : PlaintextHdr} {fragment out : Bytes} {cap : Nat}
    (hversion : hdr.legacyVersion < 256 ^ 2) (hepoch : hdr.epoch < 256 ^ 2) : plaintextSerialize hdr fragment cap = .ok out ↔
      PlaintextFits hdr fragment ∧ 13 + fragment.length ≤ cap ∧ out = plaintextBytes hdr fragment := by
  rw [plaintextSerialize, failIf_bind_eq_ok, failIf_bind_eq_ok, failIf_bind_eq_ok, pure_eq_ok, Except.ok.injEq, Nat.not_lt,
    Nat.not_lt, Nat.not_lt, plaintextHdrLen, eq_comm (b := out)]
  refine ⟨fun h => ?_, fun h => ?_⟩
  · obtain ⟨hseq, hfrag, hcap, hout⟩ := h
    exact ⟨⟨hversion, hepoch, by omega, by omega⟩, hcap, hout⟩
  · obtain ⟨⟨-, -, hseq, hfrag⟩, hcap, hout⟩ := h
    exact ⟨by omega, by omega, hcap, hout⟩

/-- The parser accepts what begins with the bytes of a header and its fragment. -/
theorem plaintextParse_eq_ok {buf fragment : Bytes} {hdr : PlaintextHdr} :
    plaintextParse buf = .ok (hdr, fragment) ↔ PlaintextFits hdr fragment ∧ hdr.length = fragment.length ∧
      ∃ rest, buf = plaintextBytes hdr fragment ++ rest := by
  simp only [plaintextParse, bind_eq_ok, failIf_eq_ok, exists_const, pure_eq_ok, Except.ok.injEq, Prod.mk.injEq]
  simp only [plaintextHdrLen]
  refine ⟨fun h => ?_, fun h => ?_⟩
  · obtain ⟨-, _, h0, _, h1, _, h3, _, h5, _, h11, -, _, hfrag, rfl, rfl⟩ := h
    obtain ⟨_, hbuf, h⟩ := (from_zero buf).of_byte h0
    obtain ⟨_, rfl, hversion, h⟩ := h.of_uint h1
    obtain ⟨_, rfl, hepoch, h⟩ := h.of_uint h3
    obtain ⟨_, rfl, hseq, h⟩ := h.of_uint h5
    obtain ⟨_, rfl, hlen, h⟩ := h.of_uint h11
    obtain ⟨rest, rfl, rfl, -⟩ := h.of_slice hfrag
    refine ⟨⟨hversion, hepoch, hseq, hlen⟩, rfl, rest, ?_⟩
    rw [hbuf]
    simp only [plaintextBytes, List.append_assoc]
  · obtain ⟨hfits, hlength, rest, hbuf⟩ := h
    have hlen : buf.length = 13 + fragment.length + rest.length := by
      rw [hbuf, List.length_append, length_plaintextBytes]
    have h : From buf 0 _ := ⟨Nat.zero_le _, hbuf⟩
    simp only [plaintextBytes, List.append_assoc] at h
    obtain ⟨h0, h⟩ := h.byte
    obtain ⟨h1, h⟩ := h.uint hfits.legacyVersion
    obtain ⟨h3, h⟩ := h.uint hfits.epoch
    obtain ⟨h5, h⟩ := h.uint hfits.sequenceNumber
    obtain ⟨h11, h⟩ := h.uint hfits.fragment
    have h13 := h.slice rfl
    exact ⟨by omega, _, h0, _, h1, _, h3, _, h5, _, h11, by rw [hlen]; omega, _, h13, by rw [← hlength], rfl⟩

theorem plaintextParse_serialize {hdr : PlaintextHdr} {fragment out : Bytes} {cap : Nat} (rest : Bytes)
    (hversion : hdr.legacyVersion < 256 ^ 2) (hepoch : hdr.epoch < 256 ^ 2)
    (h : plaintextSerialize hdr fragment cap = .ok out) :
    plaintextParse (out ++ rest) = .ok ({ hdr with length := fragment.length }, fragment) := by
  obtain ⟨hfits, -, rfl⟩ := (plaintextSerialize_eq_ok hversion hepoch).mp h
  exact plaintextParse_eq_ok.mpr ⟨⟨hfits.1, hfits.2, hfits.3, hfits.4⟩, rfl, rest, rfl⟩

theorem plaintextSerialize_parse {hdr : PlaintextHdr} {fragment buf : Bytes} {cap : Nat}
    (h : plaintextParse buf = .ok (hdr, fragment)) (hcap : 13 + fragment.length ≤ cap) :
    plaintextSerialize hdr fragment cap = .ok (buf.take (13 + fragment.length)) := by
  obtain ⟨hfits, -, rest, rfl⟩ := plaintextParse_eq_ok.mp h
  rw [List.take_left' (length_plaintextBytes hdr fragment)]
  exact (plaintextSerialize_eq_ok hfits.legacyVersion hfits.epoch).mpr ⟨hfits, hcap, rfl⟩

theorem plaintextSerialize_eq {message : Bytes} {cap : Nat} (hlen : message.length < 256 ^ 2)
    (hcap : 13 + message.length ≤ cap) :
    plaintextSerialize plaintextHdr message cap = .ok (plaintextRecord message) := by
  refine (plaintextSerialize_eq_ok (by decide) (by decide)).mpr ⟨⟨by decide, by decide, by decide, hlen⟩, hcap, ?_⟩
  simp only [plaintextBytes, plaintextRecord, vec, ← List.append_assoc]
  rfl

theorem plaintextParse_record {message : Bytes} (hlen : message.length < 256 ^ 2) :
    plaintextParse (plaintextRecord message) = .ok (⟨22, 0xfefd, 0, 0, message.length⟩, message) := by
  refine plaintextParse_eq_ok.mpr ⟨⟨?_, ?_, ?_, hlen⟩, rfl, [], ?_⟩
  · exact show 0xfefd < 256 ^ 2 by decide
  · exact show 0 < 256 ^ 2 by decide
  · exact show 0 < 256 ^ 6 by decide
  · simp only [plaintextBytes, plaintextRecord, vec, ← List.append_assoc, List.append_nil]

/-- The two layers of a hello, read back. -/
theorem parsePlaintextHandshake_record (msgType : Byte) {messageSeq : Nat} {body : Bytes}
    (hseq : messageSeq < 256 ^ 2) (hlen : body.length + 12 < 256 ^ 2) :
    parsePlaintextHandshake (plaintextRecord (handshake msgType messageSeq body)) =
      .ok (header msgType messageSeq body.length, body, handshake msgType messageSeq body) := by
  have hparse := handshakeParse_handshake msgType [] hseq (show body.length < 256 ^ 3 by omega)
  rw [List.append_nil] at hparse
  rw [parsePlaintextHandshake, plaintextParse_record (by rw [length_handshake]; omega), ok_bind]
  simp only
  rw [failIf_bind (by decide), hparse]
  rfl

/-- `wrap_and_add`, by the serializer. -/
theorem wrapAndAdd_eq_ok {t t' : Transcript} {msgType : Byte} {messageSeq outCap : Nat} {body out : Bytes} :
    wrapAndAdd t msgType messageSeq body outCap = .ok (out, t') ↔
      handshakeSerialize (header msgType messageSeq (body.length % 2 ^ 32)) body outCap = .ok out ∧ t' = transcriptAdd t out := by
  simp only [wrapAndAdd, bind_eq_ok, pure_eq_ok, Except.ok.injEq, Prod.mk.injEq]
  refine ⟨fun h => ?_, fun h => ?_⟩
  · obtain ⟨_, hser, rfl, rfl⟩ := h
    exact ⟨hser, rfl⟩
  · obtain ⟨hser, rfl⟩ := h
    exact ⟨out, hser, rfl, rfl⟩

/-- A Handshake message in an unencrypted record is read back, with anything behind it in the datagram: the receiver's
record fragment is what the serializer of the message wrote, which the sender adds to its transcript. What either
parser accepts is written again, byte for byte, from what it returns. -/
theorem framing_lossless :
    (∀ (hh : HandshakeHdr) (fragment message : Bytes) (cap : Nat) (ph : PlaintextHdr) (datagram rest : Bytes) (cap' : Nat),
      hh.messageSeq < 2 ^ 16 → ph.legacyVersion < 2 ^ 16 → ph.epoch < 2 ^ 16 →
      handshakeSerialize hh fragment cap = .ok message → plaintextSerialize ph message cap' = .ok datagram →
      plaintextParse (datagram ++ rest) = .ok ({ ph with length := message.length }, message) ∧
        handshakeParse message = .ok (hh, ⟨12, fragment⟩)) ∧
    (∀ (t t' : Transcript) (msgType : Byte) (messageSeq : Nat) (body message : Bytes) (cap : Nat) (ph : PlaintextHdr)
      (datagram rest : Bytes) (cap' : Nat), messageSeq < 2 ^ 16 → ph.legacyVersion < 2 ^ 16 → ph.epoch < 2 ^ 16 →
      wrapAndAdd t msgType messageSeq body cap = .ok (message, t') → plaintextSerialize ph message cap' = .ok datagram →
      t'.fed = t.fed ++ [message] ∧ plaintextParse (datagram ++ rest) = .ok ({ ph with length := message.length }, message) ∧
        (ph.type = ctHandshake → parsePlaintextHandshake (datagram ++ rest) =
          .ok (header msgType messageSeq body.length, body, message))) ∧
    (∀ (buf : Bytes) (hh : HandshakeHdr) (fragment : Span), handshakeParse buf = .ok (hh, fragment) →
      ∀ cap, 12 + fragment.len ≤ cap → handshakeSerialize hh fragment.bytes cap = .ok (buf.take (12 + fragment.len))) ∧
    (∀ (buf : Bytes) (ph : PlaintextHdr) (fragment : Bytes), plaintextParse buf = .ok (ph, fragment) →
      ∀ cap, 13 + fragment.length ≤ cap → plaintextSerialize ph fragment cap = .ok (buf.take (13 + fragment.length))) := by
  refine ⟨?_, ?_, ?_, ?_⟩
  · intro hh fragment message cap ph datagram rest cap' hs hv he hm hd
    exact ⟨plaintextParse_serialize rest hv he hd, handshakeParse_serialize hs hm⟩
  · intro t t' msgType messageSeq body message cap ph datagram rest cap' hs hv he hm hd
    obtain ⟨hser, rfl⟩ := wrapAndAdd_eq_ok.mp hm
    obtain ⟨hfits, -, -⟩ := (handshakeSerialize_eq_ok hs).mp hser
    have hlen : body.length % 2 ^ 32 = body.length := hfits.fragment
    have hrecord := plaintextParse_serialize rest hv he hd
    have hmessage := handshakeParse_serialize hs hser
    refine ⟨rfl, hrecord, ?_⟩
    intro htype
    rw [hlen] at hmessage
    rw [parsePlaintextHandshake, hrecord, ok_bind]
    dsimp only
    rw [failIf_bind (not_not.mpr htype), hmessage]
    rfl
  · intro buf hh fragment h cap hcap
    exact handshakeSerialize_parse h hcap
  · intro buf ph fragment h cap hcap
    exact plaintextSerialize_parse h hcap

theorem framing_lossless_finished :
    plaintextParse ([22, 0xfe, 0xfd, 0, 0, 0, 0, 0, 0, 0, 5, 0, 13, 20, 0, 0, 1, 0, 2, 0, 0, 0, 0, 0, 1, 7] ++ [9]) =
        .ok (⟨22, 0xfefd, 0, 5, 13⟩, [20, 0, 0, 1, 0, 2, 0, 0, 0, 0, 0, 1, 7]) ∧
      handshakeParse [20, 0, 0, 1, 0, 2, 0, 0, 0, 0, 0, 1, 7] = .ok (⟨20, 1, 2, 0, 1⟩, ⟨12, [7]⟩) :=
  framing_lossless.1 ⟨20, 1, 2, 0, 1⟩ [7] [20, 0, 0, 1, 0, 2, 0, 0, 0, 0, 0, 1, 7] 13 ⟨22, 0xfefd, 0, 5, 0⟩ _ [9] 26
    (by decide) (by decide) (by decide) rfl rfl

/-! ## The key schedule -/

theorem hkdfExpandLabel_eq (n : Nat) (secret label context : Bytes) (hn : n ≤ 32)
    (hl : label.length ≤ 58) (hc : context.length ≤ 64) :
    hkdfExpandLabel secret hkdfLabelPreDtls13 label context n = .ok (expandLabel n secret label context hn) := by
  have hpre : hkdfLabelPreDtls13.length = 6 := rfl
  have hinfo : (hkdfLabel n (hkdfLabelPreDtls13 ++ label) context).length ≤ 200 := by
    simp only [hkdfLabel, List.length_append, length_beBytes, hpre]
    omega
  rw [hkdfExpandLabel, if_neg (by omega), if_neg (by omega), hkdfExpand, dif_neg (by omega), if_neg (by omega)]
  congr 1
  apply Subtype.ext
  show expandLoop _ _ (254 + 1) _ _ _ = _
  by_cases h0 : n = 0
  · subst h0
    rfl
  · rw [expandLoop, if_neg h0]
    simp only [show min n 32 = n by omega, Nat.sub_self, expandLoop, ↓reduceIte, List.append_nil, List.nil_append]
    rfl

theorem deriveHandshakeKeys_eq (shared hash : BytesN 32) :
    deriveHandshakeKeys hkdfLabelPreDtls13 shared hash = .ok (handshakeKeys shared.1 hash.1) := by
  have hextract : ∀ salt ikm : BytesN 32, hkdfExtract salt.1 ikm.1 = .ok (hmacSha256 salt.1 ikm.1) := by
    intro salt ikm
    simp only [hkdfExtract, salt.2]
    rfl
  have hexpand : ∀ (n : Nat) (secret : BytesN 32) (label context : Bytes) (hn : n ≤ 32), label.length ≤ 58 →
      context.length ≤ 64 → hkdfExpandLabel secret.1 hkdfLabelPreDtls13 label context n =
        .ok (expandLabel n secret.1 label context hn) := fun n secret label context =>
    hkdfExpandLabel_eq n secret.1 label context
  have hhash := hash.2
  rw [deriveHandshakeKeys, hextract, ok_bind]
  simp only [deriveSecret]
  rw [hexpand 32 _ _ _ (by decide) (by decide) (by rw [BytesN.length_eq]; decide), ok_bind, hextract, ok_bind]
  rw [hexpand 32 _ _ _ (by decide) (by decide) (by omega), ok_bind]
  rw [hexpand 32 _ _ _ (by decide) (by decide) (by omega), ok_bind]
  rw [hexpand 32 _ _ _ (by decide) (by decide) (by decide), ok_bind]
  rw [hexpand 12 _ _ _ (by decide) (by decide) (by decide), ok_bind]
  rw [hexpand 32 _ _ _ (by decide) (by decide) (by decide), ok_bind]
  rw [hexpand 12 _ _ _ (by decide) (by decide) (by decide), ok_bind]
  rfl

theorem finishedCompute_eq (baseKey hash : BytesN 32) :
    finishedCompute hkdfLabelPreDtls13 baseKey hash = .ok (verifyData baseKey.1 hash.1) := by
  rw [finishedCompute, hkdfExpandLabel_eq 32 _ _ _ (by decide) (by decide) (by decide)]
  rfl

/-- A Finished body is accepted iff it is the `verify_data`. -/
theorem checkFinished_eq_ok {frag : Bytes} {baseKey hash v : BytesN 32} :
    checkFinished baseKey hash frag = .ok v ↔ frag = v.1 ∧ v = verifyData baseKey.1 hash.1 := by
  rw [checkFinished, failIf_bind_eq_ok]
  simp only [finishedVerify, finishedCompute_eq, ok_bind, bind_eq_ok, failIf_eq_ok, not_not]
  constructor
  · intro h
    rcases h with ⟨hlen, b, hb, _, hdiff, hv⟩
    rw [bytesN, dif_pos hlen] at hb
    cases hb
    cases hv
    rw [Proof.Aead.diffBytes_eq_zero (by rw [BytesN.length_eq, hlen])] at hdiff
    exact ⟨rfl, Subtype.ext hdiff.symm⟩
  · intro h
    rcases h with ⟨hfrag, hv⟩
    subst hfrag
    refine ⟨v.2, v, bytesN_eq v, (), ?_, rfl⟩
    rw [Proof.Aead.diffBytes_eq_zero (by rw [BytesN.length_eq, BytesN.length_eq]), hv]

end ND.Proof.Handshake
