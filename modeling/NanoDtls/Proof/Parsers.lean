import NanoDtls.Impl.Hello
import NanoDtls.Impl.Messages
import NanoDtls.Proof.Span

/-!
# The handshake parsers stay inside their input

For inputs of less than `2^31` bytes. A length that is read has at most 24
bits, so the sums of the readers do not wrap around: what a reader gives is
inside its span (`view_ensures`), and each loop ends because a turn reads at
least two bytes.
-/

namespace ND.Proof.Parsers

open ND.Impl Handshake Hello Messages

/-! ## Readers -/

/-- A reader inside an input of less than `2^31` bytes. -/
structure Good (r : Reader) : Prop where
  pos_le : r.pos ≤ r.span.len
  len_lt : r.span.len < 2 ^ 31

/-- `r` has read `n` bytes, and is `r'` then. -/
structure Reads (r : Reader) (n : Nat) (r' : Reader) : Prop where
  span : r'.span = r.span
  pos : r'.pos = r.pos + n
  pos_le : r.pos + n ≤ r.span.len
  good : Good r'

variable {r : Reader} {e : Status} {n : Nat}

theorem good_init {s : Span} (h : s.len < 2 ^ 31) : Good (.init s) := ⟨Nat.zero_le _, h⟩

theorem view_ensures (h : Good r) (he : e ≠ .ub) (hn : n < 256 ^ 3) : Ensures Status.ub (r.view e n)
    fun x => Reads r n x.2 ∧ x.1.off = r.span.off + r.pos ∧ Slice r.span.bytes r.pos x.1.bytes ∧ x.1.len = n := by
  have hpos := h.pos_le
  have hlt := h.len_lt
  rw [Reader.view, szAdd_eq (by omega)]
  apply ensures_failIf_bind he
  intro hfit
  have hfit := Nat.le_of_not_lt hfit
  exact (sub_ensures hfit).bind fun s hs => ensures_ok ⟨⟨rfl, rfl, hfit, hfit, hlt⟩, hs⟩

theorem skip_ensures (h : Good r) (he : e ≠ .ub) (hn : n < 256 ^ 3) : Ensures Status.ub (r.skip e n) (Reads r n) :=
  (view_ensures h he hn).bind fun _ hx => ensures_ok hx.1

theorem bytes_ensures (h : Good r) (he : e ≠ .ub) (hn : n < 256 ^ 3) :
    Ensures Status.ub (r.bytes e n) fun x => x.1.length = n ∧ Reads r n x.2 :=
  (view_ensures h he hn).bind fun _ hx => ensures_ok ⟨hx.2.2.2, hx.1⟩

theorem uint_ensures (h : Good r) (he : e ≠ .ub) (hn : n < 256 ^ 3) :
    Ensures Status.ub (r.uint n e) fun x => x.1 < 256 ^ n ∧ Reads r n x.2 := by
  refine (bytes_ensures h he hn).bind ?_
  intro ⟨b, r'⟩ ⟨hlen, hr⟩
  have hlt := beNat_lt b
  rw [hlen] at hlt
  exact ensures_ok ⟨hlt, hr⟩

theorem u8_ensures (h : Good r) (he : e ≠ .ub) : Ensures Status.ub (r.u8 e) fun x => x.1 < 256 ^ 3 ∧ Reads r 1 x.2 :=
  (uint_ensures h he (by decide)).mono fun _ hx => ⟨hx.1.trans (by decide), hx.2⟩

theorem u16_ensures (h : Good r) (he : e ≠ .ub) : Ensures Status.ub (r.u16 e) fun x => x.1 < 256 ^ 3 ∧ Reads r 2 x.2 :=
  (uint_ensures h he (by decide)).mono fun _ hx => ⟨hx.1.trans (by decide), hx.2⟩

theorem u24_ensures (h : Good r) (he : e ≠ .ub) : Ensures Status.ub (r.u24 e) fun x => x.1 < 256 ^ 3 ∧ Reads r 3 x.2 :=
  uint_ensures h he (by decide)

/-! ## Hellos -/

theorem findExtensionLoop_ensures (wantType : Nat) : ∀ (fuel : Nat) (r : Reader), Good r → r.span.len < fuel + r.pos →
    Ensures Status.ub (findExtensionLoop wantType fuel r) (Inside r.span)
  | 0, r, h, hfuel => by
    have := h.pos_le
    omega
  | fuel + 1, r, h, hfuel => by
    refine ensures_ite (fun _ => ?_) fun _ => ensures_error (by decide)
    refine (u16_ensures h (by decide)).bind ?_
    intro ⟨extType, r₁⟩ ⟨_, h₁⟩
    refine (u16_ensures h₁.good (by decide)).bind ?_
    intro ⟨extLen, r₂⟩ ⟨hlen, h₂⟩
    refine (view_ensures h₂.good (by decide) hlen).bind ?_
    intro ⟨data, r₃⟩ ⟨h₃, hoff, hslice, _⟩
    have hspan : r₃.span = r.span := h₃.span.trans (h₂.span.trans h₁.span)
    have hpos₁ := h₁.pos
    have hpos₂ := h₂.pos
    have hpos₃ := h₃.pos
    simp only at hpos₁ hpos₂ hpos₃
    refine ensures_ite (fun _ => ensures_ok ?_) fun _ => ?_
    · rw [← h₁.span, ← h₂.span]
      exact ⟨_, hoff, hslice⟩
    · rw [← hspan]
      exact findExtensionLoop_ensures wantType fuel r₃ h₃.good (by rw [hspan]; omega)

theorem findExtension_ensures {extBlock : Span} (h : extBlock.len < 2 ^ 31) (wantType : Nat) :
    Ensures Status.ub (findExtension extBlock wantType) (Inside extBlock) :=
  findExtensionLoop_ensures wantType _ _ (good_init h) (Nat.lt_succ_self _)

theorem readKeyShareEntry_ensures (h : Good r) : Ensures Status.ub (readKeyShareEntry r)
    fun x => x.2.2.span = r.span ∧ r.pos + 4 ≤ x.2.2.pos ∧ Good x.2.2 := by
  refine (u16_ensures h (by decide)).bind ?_
  intro ⟨group, r₁⟩ ⟨_, h₁⟩
  refine (u16_ensures h₁.good (by decide)).bind ?_
  intro ⟨keyLen, r₂⟩ ⟨hlen, h₂⟩
  refine (view_ensures h₂.good (by decide) hlen).bind ?_
  intro ⟨key, r₃⟩ ⟨h₃, _⟩
  have hpos₁ := h₁.pos
  have hpos₂ := h₂.pos
  have hpos₃ := h₃.pos
  simp only at hpos₁ hpos₂ hpos₃
  refine ensures_ok ⟨h₃.span.trans (h₂.span.trans h₁.span), ?_, h₃.good⟩
  simp only
  omega

theorem serverHelloParse_ensures {buf : Bytes} (h : buf.length < 2 ^ 31) :
    Ensures Status.ub (serverHelloParse buf) fun _ => True := by
  refine (u16_ensures (good_init (s := .ofBytes buf) h) (by decide)).bind ?_
  intro ⟨_, r₁⟩ ⟨_, h₁⟩
  refine (bytes_ensures h₁.good (by decide) (by decide)).bind ?_
  intro ⟨random, r₂⟩ ⟨hrandom, h₂⟩
  refine (bytesN_ensures hrandom).bind fun random _ => ?_
  refine (u8_ensures h₂.good (by decide)).bind ?_
  intro ⟨sessionIdEchoLen, r₃⟩ ⟨hlen, h₃⟩
  refine (skip_ensures h₃.good (by decide) hlen).bind fun r₄ h₄ => ?_
  refine (u16_ensures h₄.good (by decide)).bind ?_
  intro ⟨cipherSuite, r₅⟩ ⟨_, h₅⟩
  refine (u8_ensures h₅.good (by decide)).bind ?_
  intro ⟨_, r₆⟩ ⟨_, h₆⟩
  refine (u16_ensures h₆.good (by decide)).bind ?_
  intro ⟨extListLen, r₇⟩ ⟨hlen, h₇⟩
  refine (view_ensures h₇.good (by decide) hlen).bind ?_
  intro ⟨extBlock, r₈⟩ ⟨_, _, _, hblock⟩
  have hblock : extBlock.len < 2 ^ 31 := by
    simp only at hblock hlen
    omega
  refine (findExtension_ensures hblock _).bind fun svData hsv => ?_
  apply ensures_failIf_bind (by decide)
  intro hsv
  have hsv : svData.bytes.length = 2 := Decidable.not_not.mp hsv
  refine (readUint_ensures (by omega)).bind fun selectedVersion _ => ?_
  apply ensures_failIf_bind (by decide)
  intro _
  refine (findExtension_ensures hblock _).bind fun ksData hks => ?_
  refine (readKeyShareEntry_ensures (good_init (Nat.lt_of_le_of_lt hks.len_le hblock))).bind ?_
  intro ⟨group, key, _⟩ _
  apply ensures_failIf_bind (by decide)
  intro hkey
  refine (bytesN_ensures ?_).bind fun _ _ => ensures_ok trivial
  exact Decidable.not_not.mp fun hne => hkey (.inr hne)

theorem suiteLoop_ensures : ∀ (fuel : Nat) (found : Bool) (r : Reader), Good r → r.span.len < fuel + r.pos →
    Ensures Status.ub (suiteLoop fuel found r) fun _ => True
  | 0, _, r, h, hfuel => by
    have := h.pos_le
    omega
  | fuel + 1, found, r, h, hfuel => by
    refine ensures_ite (fun _ => ?_) fun _ => ensures_ok trivial
    refine (u16_ensures h (by decide)).bind ?_
    intro ⟨suite, r₁⟩ ⟨_, h₁⟩
    have hpos := h₁.pos
    have hspan := h₁.span
    simp only at hpos hspan
    exact suiteLoop_ensures fuel _ r₁ h₁.good (by rw [hspan]; omega)

/-- The index stays at most one past the end, and two turns would pass the bytes that are left. -/
theorem versionLoop_ensures (svData : Bytes) : ∀ (fuel : Nat) (found : Bool) (i : Nat), i ≤ svData.length + 1 →
    svData.length + 2 ≤ 2 * fuel + i → Ensures Status.ub (versionLoop svData fuel found i) fun _ => True
  | 0, _, i, hi, hfuel => by omega
  | fuel + 1, found, i, hi, hfuel => by
    refine ensures_ite (fun hlt => ?_) fun _ => ensures_ok trivial
    exact (readUint_ensures (by omega)).bind fun v _ => versionLoop_ensures svData fuel _ (i + 2) (by omega) (by omega)

theorem shareLoop_ensures : ∀ (fuel : Nat) (found : Option (BytesN 32)) (r : Reader), Good r → r.span.len < fuel + r.pos →
    Ensures Status.ub (shareLoop fuel found r) fun _ => True
  | 0, _, r, h, hfuel => by
    have := h.pos_le
    omega
  | fuel + 1, found, r, h, hfuel => by
    refine ensures_ite (fun _ => ?_) fun _ => ensures_ok trivial
    refine (readKeyShareEntry_ensures h).bind ?_
    intro ⟨group, key, r₁⟩ ⟨hspan, hpos, h₁⟩
    have hkey : Ensures Status.ub
        (if group = namedGroupX25519 ∧ key.len = 32 then some <$> bytesN 32 key.bytes else .ok found) fun _ => True :=
      ensures_ite (fun hk => (bytesN_ensures hk.2).bind fun _ _ => ensures_ok trivial) fun _ => ensures_ok trivial
    refine hkey.bind fun found' _ => ?_
    simp only at hspan hpos
    exact shareLoop_ensures fuel found' r₁ h₁ (by rw [hspan]; omega)

theorem checkVersions_ensures (svData : Span) : Ensures Status.ub (checkVersions svData) fun _ => True := by
  apply ensures_failIf_bind (by decide)
  intro h1
  refine (readAt_ensures (Nat.le_of_not_lt h1)).bind fun listLen _ => ?_
  apply ensures_failIf_bind (by decide)
  intro _
  refine (versionLoop_ensures svData.bytes _ false 1 (by omega) ?_).bind fun found _ => ?_
  · simp only [Span.len]
    omega
  · exact (ensures_failIf (by decide)).mono fun _ _ => trivial

theorem clientKeyShare_ensures {ksData : Span} (h : ksData.len < 2 ^ 31) :
    Ensures Status.ub (clientKeyShare ksData) fun _ => True := by
  refine (u16_ensures (good_init h) (by decide)).bind ?_
  intro ⟨listLen, r₁⟩ ⟨hlen, h₁⟩
  refine (view_ensures h₁.good (by decide) hlen).bind ?_
  intro ⟨listData, r₂⟩ ⟨_, _, _, hlist⟩
  have hlist : listData.len < 2 ^ 31 := by
    simp only at hlist hlen
    omega
  refine (shareLoop_ensures _ none _ (good_init hlist) (Nat.lt_succ_self _)).bind fun found _ => ?_
  cases found with
  | none => exact ensures_error (by decide)
  | some key => exact ensures_ok trivial

theorem clientHelloParse_ensures {buf : Bytes} (h : buf.length < 2 ^ 31) :
    Ensures Status.ub (clientHelloParse buf) fun _ => True := by
  refine (u16_ensures (good_init (s := .ofBytes buf) h) (by decide)).bind ?_
  intro ⟨_, r₁⟩ ⟨_, h₁⟩
  refine (bytes_ensures h₁.good (by decide) (by decide)).bind ?_
  intro ⟨random, r₂⟩ ⟨hrandom, h₂⟩
  refine (bytesN_ensures hrandom).bind fun random _ => ?_
  refine (u8_ensures h₂.good (by decide)).bind ?_
  intro ⟨sessionIdLen, r₃⟩ ⟨hlen, h₃⟩
  refine (skip_ensures h₃.good (by decide) hlen).bind fun r₄ h₄ => ?_
  refine (u8_ensures h₄.good (by decide)).bind ?_
  intro ⟨cookieLen, r₅⟩ ⟨hlen, h₅⟩
  refine (skip_ensures h₅.good (by decide) hlen).bind fun r₆ h₆ => ?_
  refine (u16_ensures h₆.good (by decide)).bind ?_
  intro ⟨csLen, r₇⟩ ⟨hlen, h₇⟩
  refine (view_ensures h₇.good (by decide) hlen).bind ?_
  intro ⟨csData, r₈⟩ ⟨h₈, _, _, hcs⟩
  have hcs : csData.len < 2 ^ 31 := by
    simp only at hcs hlen
    omega
  refine (suiteLoop_ensures _ false _ (good_init hcs) (Nat.lt_succ_self _)).bind fun found _ => ?_
  apply ensures_failIf_bind (by decide)
  intro _
  refine (u8_ensures h₈.good (by decide)).bind ?_
  intro ⟨compLen, r₉⟩ ⟨hlen, h₉⟩
  refine (skip_ensures h₉.good (by decide) hlen).bind fun r₁₀ h₁₀ => ?_
  refine (u16_ensures h₁₀.good (by decide)).bind ?_
  intro ⟨extListLen, r₁₁⟩ ⟨hlen, h₁₁⟩
  refine (view_ensures h₁₁.good (by decide) hlen).bind ?_
  intro ⟨extBlock, r₁₂⟩ ⟨_, _, _, hblock⟩
  have hblock : extBlock.len < 2 ^ 31 := by
    simp only at hblock hlen
    omega
  refine (findExtension_ensures hblock _).bind fun svData _ => ?_
  refine (checkVersions_ensures svData).bind fun _ _ => ?_
  refine (findExtension_ensures hblock _).bind fun ksData hks => ?_
  exact (clientKeyShare_ensures (Nat.lt_of_le_of_lt hks.len_le hblock)).bind fun _ _ => ensures_ok trivial

/-! ## Messages -/

theorem handshakeParse_ensures (buf : Bytes) :
    Ensures Status.ub (handshakeParse buf) fun x => Inside (.ofBytes buf) x.2 := by
  apply ensures_failIf_bind (by decide)
  intro hlen
  simp only [handshakeHdrLen, Nat.not_lt] at hlen
  have huint (off n : Nat) (h : off + n ≤ 12) : Ensures Status.ub (beNat <$> readSlice buf off n) fun _ => True :=
    readUint_ensures (by omega)
  refine (readAt_ensures (by omega)).bind fun msgType _ => ?_
  refine (huint 1 3 (by decide)).bind fun length _ => ?_
  refine (huint 4 2 (by decide)).bind fun messageSeq _ => ?_
  refine (huint 6 3 (by decide)).bind fun fragmentOffset _ => ?_
  refine (huint 9 3 (by decide)).bind fun fragmentLength _ => ?_
  apply ensures_failIf_bind (by decide)
  intro hfit
  simp only [handshakeHdrLen, Nat.not_lt] at hfit
  have hin : handshakeHdrLen + fragmentLength ≤ (Span.ofBytes buf).len := by
    simp only [handshakeHdrLen, Span.ofBytes, Span.len]
    omega
  exact (sub_ensures hin).bind fun fragment hf => ensures_ok ⟨_, hf.1, hf.2.1⟩

theorem encryptedExtensionsParse_ensures {buf : Bytes} (h : buf.length < 2 ^ 31) :
    Ensures Status.ub (encryptedExtensionsParse buf) fun _ => True := by
  refine (u16_ensures (good_init (s := .ofBytes buf) h) (by decide)).bind ?_
  intro ⟨extLen, r₁⟩ ⟨hlen, h₁⟩
  refine (skip_ensures h₁.good (by decide) hlen).bind fun r₂ _ => ?_
  exact (ensures_failIf (by decide)).mono fun _ _ => trivial

/-- The certificates of a list lie inside `S` up to `stop`, one after the other. -/
structure Listed (S : Span) (stop : Nat) (certs : List Span) : Prop where
  count : certs.length ≤ certificateMsgMaxCerts
  inside : ∀ c ∈ certs, Inside S c
  stop_le : ∀ c ∈ certs, c.off + c.len ≤ stop
  ordered : certs.Pairwise fun a b => a.off + a.len ≤ b.off

/-- One more certificate, behind the others. -/
theorem Listed.store {S c : Span} {stop stop' : Nat} {certs : List Span} (h : Listed S stop certs)
    (hfree : certs.length < certificateMsgMaxCerts) (hc : Inside S c) (hstart : stop ≤ c.off) (hstop : c.off + c.len ≤ stop') :
    Ensures Status.ub (storeCert certs c) (Listed S stop') := by
  rw [storeCert, if_pos hfree]
  refine ensures_ok ⟨?_, ?_, ?_, ?_⟩
  · rw [List.length_append, List.length_singleton]
    exact hfree
  · rw [List.forall_mem_append, List.forall_mem_singleton]
    exact ⟨h.inside, hc⟩
  · rw [List.forall_mem_append, List.forall_mem_singleton]
    refine ⟨fun d hd => ?_, hstop⟩
    have := h.stop_le d hd
    omega
  · rw [List.pairwise_append]
    refine ⟨h.ordered, List.pairwise_singleton _ _, fun d hd d' hd' => ?_⟩
    obtain rfl : d' = c := List.mem_singleton.mp hd'
    exact (h.stop_le d hd).trans hstart

theorem certificateLoop_ensures : ∀ (fuel : Nat) (certs : List Span) (lr : Reader), Good lr → lr.span.len < fuel + lr.pos →
    Listed lr.span (lr.span.off + lr.pos) certs →
    Ensures Status.ub (certificateLoop fuel certs lr) fun certs => ∃ stop, Listed lr.span stop certs
  | 0, _, lr, h, hfuel, _ => by
    have := h.pos_le
    omega
  | fuel + 1, certs, lr, h, hfuel, hcerts => by
    refine ensures_ite (fun _ => ?_) fun _ => ensures_ok ⟨_, hcerts⟩
    apply ensures_failIf_bind (by decide)
    intro hfree
    refine (u24_ensures h (by decide)).bind ?_
    intro ⟨certLen, r₁⟩ ⟨hlen, h₁⟩
    refine (view_ensures h₁.good (by decide) hlen).bind ?_
    intro ⟨certData, r₂⟩ ⟨h₂, hoff, hslice, hcert⟩
    refine (u16_ensures h₂.good (by decide)).bind ?_
    intro ⟨extLen, r₃⟩ ⟨hlen', h₃⟩
    refine (skip_ensures h₃.good (by decide) hlen').bind fun r₄ h₄ => ?_
    have hspan : r₄.span = lr.span := h₄.span.trans (h₃.span.trans (h₂.span.trans h₁.span))
    have hpos₁ := h₁.pos
    have hpos₂ := h₂.pos
    have hpos₃ := h₃.pos
    have hpos₄ := h₄.pos
    simp only at hpos₁ hpos₂ hpos₃ hpos₄ hoff hslice hcert
    have hin : Inside lr.span certData := by
      rw [← h₁.span]
      exact ⟨_, hoff, hslice⟩
    rw [h₁.span] at hoff
    refine (hcerts.store (Nat.lt_of_not_le hfree) hin (by omega)
      (show certData.off + certData.len ≤ r₄.span.off + r₄.pos by rw [hspan]; omega)).bind fun certs' hcerts' => ?_
    rw [← hspan] at hcerts' ⊢
    exact certificateLoop_ensures fuel certs' r₄ h₄.good (by rw [hspan]; omega) hcerts'

theorem Listed.inside_of {S S' : Span} {stop : Nat} {certs : List Span} (h : Listed S stop certs) (hS : Inside S' S) :
    Listed S' stop certs :=
  ⟨h.count, fun c hc => hS.trans (h.inside c hc), h.stop_le, h.ordered⟩

theorem certificateParse_ensures {buf : Bytes} (h : buf.length < 2 ^ 31) :
    Ensures Status.ub (certificateParse buf) fun certs => ∃ stop, Listed (.ofBytes buf) stop certs := by
  refine (u8_ensures (good_init (s := .ofBytes buf) h) (by decide)).bind ?_
  intro ⟨ctxLen, r₁⟩ ⟨hlen, h₁⟩
  refine (skip_ensures h₁.good (by decide) hlen).bind fun r₂ h₂ => ?_
  refine (u24_ensures h₂.good (by decide)).bind ?_
  intro ⟨listLen, r₃⟩ ⟨hlen, h₃⟩
  refine (view_ensures h₃.good (by decide) hlen).bind ?_
  intro ⟨listData, r₄⟩ ⟨h₄, hoff, hslice, _⟩
  rw [h₃.span, h₂.span, h₁.span] at hoff hslice
  have hin : Inside (.ofBytes buf) listData := ⟨_, hoff, hslice⟩
  have hempty : Listed listData (listData.off + 0) [] := ⟨by decide, nofun, nofun, List.Pairwise.nil⟩
  have hlist : Good (.init listData) := good_init (Nat.lt_of_le_of_lt hin.len_le h)
  refine (certificateLoop_ensures _ [] (.init listData) hlist (Nat.lt_succ_self _) hempty).bind ?_
  intro certs ⟨stop, hcerts⟩
  apply ensures_failIf_bind (by decide)
  intro _
  exact ensures_ok ⟨stop, hcerts.inside_of hin⟩

theorem certificateVerifyParse_ensures {buf : Bytes} (h : buf.length < 2 ^ 31) :
    Ensures Status.ub (certificateVerifyParse buf) fun msg => Inside (.ofBytes buf) msg.signature := by
  refine (u16_ensures (good_init (s := .ofBytes buf) h) (by decide)).bind ?_
  intro ⟨algorithm, r₁⟩ ⟨_, h₁⟩
  refine (u16_ensures h₁.good (by decide)).bind ?_
  intro ⟨sigLen, r₂⟩ ⟨hlen, h₂⟩
  refine (view_ensures h₂.good (by decide) hlen).bind ?_
  intro ⟨sig, r₃⟩ ⟨_, hoff, hslice, _⟩
  apply ensures_failIf_bind (by decide)
  intro _
  rw [h₂.span, h₁.span] at hoff hslice
  exact ensures_ok ⟨_, hoff, hslice⟩

/-- None of the parsers reads or writes out of bounds, and each ends. The views that they return are views
of the input; of the certificates there are at most four, in order and apart from each other. -/
theorem parsers_in_bounds (buf : Bytes) (h : buf.length < 2 ^ 31) :
    (Avoids Status.ub (handshakeParse buf) ∧ Avoids Status.ub (clientHelloParse buf) ∧
      Avoids Status.ub (serverHelloParse buf) ∧ Avoids Status.ub (encryptedExtensionsParse buf) ∧
      Avoids Status.ub (certificateParse buf) ∧ Avoids Status.ub (certificateVerifyParse buf)) ∧
    (∀ hdr fragment, handshakeParse buf = .ok (hdr, fragment) → ViewOf buf fragment) ∧
    (∀ certs, certificateParse buf = .ok certs → certs.length ≤ certificateMsgMaxCerts ∧ (∀ c ∈ certs, ViewOf buf c) ∧
      certs.Pairwise fun a b => a.off + a.len ≤ b.off) ∧
    ∀ msg, certificateVerifyParse buf = .ok msg → ViewOf buf msg.signature := by
  have hcert := certificateParse_ensures h
  have hcv := certificateVerifyParse_ensures h
  refine ⟨⟨(handshakeParse_ensures buf).1, (clientHelloParse_ensures h).1, (serverHelloParse_ensures h).1,
    (encryptedExtensionsParse_ensures h).1, hcert.1, hcv.1⟩, ?_, ?_, ?_⟩
  · intro hdr fragment hparse
    exact ((handshakeParse_ensures buf).2 _ hparse).viewOf
  · intro certs hparse
    obtain ⟨_, hcerts⟩ := hcert.2 certs hparse
    exact ⟨hcerts.count, fun c hc => (hcerts.inside c hc).viewOf, hcerts.ordered⟩
  · intro msg hparse
    exact (hcv.2 msg hparse).viewOf

/-- A Certificate message with two certificates, of two bytes and of one. -/
def twoCertificates : Bytes := [0, 0, 0, 13, 0, 0, 2, 1, 2, 0, 0, 0, 0, 1, 3, 0, 0]

theorem parsers_in_bounds_two : ∃ a b, certificateParse twoCertificates = .ok [a, b] ∧
    ViewOf twoCertificates a ∧ ViewOf twoCertificates b ∧ a.off + a.len ≤ b.off := by
  have hparse : certificateParse twoCertificates = .ok [⟨7, [1, 2]⟩, ⟨14, [3]⟩] := by rfl
  obtain ⟨-, -, hcerts, -⟩ := parsers_in_bounds twoCertificates (by decide)
  obtain ⟨-, hviews, hordered⟩ := hcerts _ hparse
  refine ⟨_, _, hparse, hviews _ (by simp), hviews _ (by simp), ?_⟩
  exact List.rel_of_pairwise_cons hordered (by simp)

end ND.Proof.Parsers
