import NanoDtls.Impl.Hello
import NanoDtls.Proof.Wire
import NanoDtls.Spec.Wire

/-!
# Hellos

The serializers write the encodings of the specification. A parser reads the
fields of a hello (`clientHelloParse_frame`, `serverHelloParse_frame`),
whatever follows them, and accepts one whose lists hold what it looks for:
`findExtension` is the first extension of its type (`findExtension_eq`), and
the loops over suites, versions and shares go through whole lists
(`suiteLoop_eq_ok`, `checkVersions_eq_ok`, `clientKeyShare_eq_ok`). So what a
parser returns depends only on these (`hello_parse_iff`).
-/

namespace ND.Proof.Hello

open ND.Impl ND.Impl.Hello ND.Proof.Wire
open Proof.Record (eq_cons_of_readAt bytesN_eq bytesN_eq_ok readSlice_eq_ok readSlice_append)
open Spec.Wire (vec extension length_vec keyShareEntry)
open Spec.Grammar (Opaque Tagged Extensions u16s encodeAll first x25519 lastX25519 ClientFrame ServerFrame
  OffersVersion OffersShare SelectsShare)

/-! ## Serializers -/

theorem writes_clientExtensions (params : HelloParams) : Writes (clientExtensions params)
    ((Spec.Wire.clientExtensions params.x25519PublicKey.1).flatMap extension) := by
  have hsv := (writes_u16 extSupportedVersions).comp (((writes_u16 dtls13Version).withLen 1).withLen 2)
  have hsg := (writes_u16 10).comp (((writes_u16 namedGroupX25519).withLen 2).withLen 2)
  have hentry := (writes_u16 namedGroupX25519).comp ((writes_bytes params.x25519PublicKey.1).withLen 2)
  have hks := (writes_u16 extKeyShare).comp ((hentry.withLen 2).withLen 2)
  have hsa := (writes_u16 13).comp
    (((((writes_u16 0x0403).comp (writes_u16 0x0804)).comp (writes_u16 0x0807)).withLen 2).withLen 2)
  have h := ((hsv.comp hsg).comp hks).comp hsa
  refine h.of_eq ?_
  simp [Spec.Wire.clientExtensions, extension, vec, keyShareEntry, extSupportedVersions, dtls13Version,
    namedGroupX25519, extKeyShare]

theorem length_clientHello (random key : BytesN 32) : (Spec.Wire.clientHello random.1 key.1).length = 113 := by
  simp [Spec.Wire.clientHello, Spec.Wire.clientExtensions, extension, vec, keyShareEntry, random.2, key.2]

/-- `nd_client_hello_serialize` into a buffer of any size. -/
theorem clientHelloSerialize_cap (params : HelloParams) {cap : Nat} (hcap : cap < 2 ^ 64) :
    clientHelloSerialize params cap =
      if 113 ≤ cap then .ok (Spec.Wire.clientHello params.random.1 params.x25519PublicKey.1)
      else .error .badLength := by
  have h := ((((((writes_u16 dtls12LegacyVersion).comp (writes_bytes params.random.1)).comp
    (writes_id.withLen 1)).comp (writes_id.withLen 1)).comp ((writes_u16 cipherSuite).withLen 2)).comp
    ((writes_u8 0x00).withLen 1)).comp ((writes_clientExtensions params).withLen 2)
  have hlen := length_clientHello params.random params.x25519PublicKey
  rw [← hlen]
  exact h.finish_eq hcap (hlen.trans_lt (by decide))

/-- `nd_client_hello_serialize`. -/
theorem clientHelloSerialize_eq (params : HelloParams) :
    clientHelloSerialize params 512 = .ok (Spec.Wire.clientHello params.random.1 params.x25519PublicKey.1) :=
  clientHelloSerialize_cap params (by decide)

theorem writes_serverExtensions (params : HelloParams) : Writes (serverExtensions params)
    ((Spec.Wire.serverExtensions params.x25519PublicKey.1).flatMap extension) := by
  have hsv := (writes_u16 extSupportedVersions).comp ((writes_u16 dtls13Version).withLen 2)
  have hentry := (writes_u16 namedGroupX25519).comp ((writes_bytes params.x25519PublicKey.1).withLen 2)
  have h := (hsv.comp (writes_u16 extKeyShare)).comp (hentry.withLen 2)
  refine h.of_eq ?_
  simp [Spec.Wire.serverExtensions, extension, vec, keyShareEntry, extSupportedVersions, dtls13Version,
    namedGroupX25519, extKeyShare]

theorem length_serverHello (random key : BytesN 32) : (Spec.Wire.serverHello random.1 key.1).length = 86 := by
  simp [Spec.Wire.serverHello, Spec.Wire.serverExtensions, extension, vec, keyShareEntry, random.2, key.2]

/-- `nd_server_hello_serialize` into a buffer of any size. -/
theorem serverHelloSerialize_cap (params : HelloParams) {cap : Nat} (hcap : cap < 2 ^ 64) :
    serverHelloSerialize params cap =
      if 86 ≤ cap then .ok (Spec.Wire.serverHello params.random.1 params.x25519PublicKey.1)
      else .error .badLength := by
  have h := (((((writes_u16 dtls12LegacyVersion).comp (writes_bytes params.random.1)).comp
    (writes_id.withLen 1)).comp (writes_u16 cipherSuite)).comp (writes_u8 0x00)).comp
    ((writes_serverExtensions params).withLen 2)
  have hlen := length_serverHello params.random params.x25519PublicKey
  rw [← hlen]
  exact h.finish_eq hcap (hlen.trans_lt (by decide))

/-- `nd_server_hello_serialize`. -/
theorem serverHelloSerialize_eq (params : HelloParams) :
    serverHelloSerialize params 512 = .ok (Spec.Wire.serverHello params.random.1 params.x25519PublicKey.1) :=
  serverHelloSerialize_cap params (by decide)

/-! ## Entries -/

theorem encodeAll_cons (entry : Tagged) (l : List Tagged) : encodeAll (entry :: l) = entry.encode ++ encodeAll l := rfl

theorem encode_ne_nil (entry : Tagged) : entry.encode ≠ [] := by simp [Tagged.encode, beBytes]

theorem length_le_encodeAll (l : List Tagged) : l.length ≤ (encodeAll l).length := by
  induction l with
  | nil => exact Nat.zero_le _
  | cons entry l ih =>
    have hpos := List.length_pos_iff.mpr (encode_ne_nil entry)
    rw [encodeAll_cons, List.length_append, List.length_cons]
    omega

/-- An entry in front of a reader. -/
theorem readKeyShareEntry_eq {r : Reader} {rest : Bytes} {entry : Tagged} (h : At r (entry.encode ++ rest)) :
    ∃ r' off, readKeyShareEntry r = .ok (entry.tag.toNat, ⟨off, entry.data.1⟩, r') ∧ At r' rest := by
  rw [Tagged.encode, List.append_assoc] at h
  obtain ⟨htag, h⟩ := h.uint .unsupported entry.tag.isLt
  obtain ⟨hlen, hview, -, h⟩ := h.vector .unsupported .unsupported
  refine ⟨_, r.span.off + (r.pos + 2 + 2), ?_, h⟩
  simp only [readKeyShareEntry, Reader.u16, htag, hlen, hview, ok_bind]
  rfl

/-- An entry that was read. -/
theorem of_readKeyShareEntry {r r' : Reader} {rest : Bytes} {group : Nat} {key : Span} (h : At r rest)
    (hr : readKeyShareEntry r = .ok (group, key, r')) :
    ∃ (entry : Tagged) (rest' : Bytes), group = entry.tag.toNat ∧ key.bytes = entry.data.1 ∧
      rest = entry.encode ++ rest' ∧ At r' rest' := by
  simp only [readKeyShareEntry, bind_eq_ok, Prod.exists, pure_eq_ok, Except.ok.injEq, Prod.mk.injEq] at hr
  obtain ⟨_, r₁, htag, _, r₂, hlen, _, _, hview, rfl, rfl, rfl⟩ := hr
  obtain ⟨tag, _, rfl, rfl, h₁⟩ := h.of_u16 htag
  obtain ⟨data, rest', hdata, rfl, h₂⟩ := h₁.of_vector hlen hview
  exact ⟨⟨tag, data⟩, rest', rfl, hdata, by rw [Tagged.encode, List.append_assoc], h₂⟩

/-! ## The first extension of a type -/

theorem findExtensionLoop_succ (want fuel : Nat) (r : Reader) :
    findExtensionLoop want (fuel + 1) r =
      if r.more then readKeyShareEntry r >>= fun x => if x.1 = want then .ok x.2.1 else findExtensionLoop want fuel x.2.2
      else .error .unsupported := by
  simp only [findExtensionLoop, readKeyShareEntry, bind_assoc, pure_bind]

theorem first_cons (t : BitVec 16) (entry : Tagged) (l : List Tagged) :
    first t (entry :: l) = if entry.tag = t then some entry.data.1 else first t l := by
  by_cases h : entry.tag = t <;> simp [first, h]

theorem findExtensionLoop_eq (want : BitVec 16) : ∀ (l : List Tagged) (r : Reader) (fuel : Nat),
    At r (encodeAll l) → l.length < fuel →
    Span.bytes <$> findExtensionLoop want.toNat fuel r = (first want l).elim (.error .unsupported) .ok
  | _, _, 0, _, hf => absurd hf (Nat.not_lt_zero _)
  | [], r, fuel + 1, h, _ => by
    rw [findExtensionLoop_succ, if_neg (fun hm => h.more.mp hm rfl)]
    rfl
  | entry :: l, r, fuel + 1, h, hf => by
    have hmore : r.more = true := h.more.mpr (by simp [encodeAll_cons, encode_ne_nil])
    obtain ⟨r', off, hread, h'⟩ := readKeyShareEntry_eq h
    rw [findExtensionLoop_succ, if_pos hmore, hread, ok_bind, first_cons]
    simp only [BitVec.toNat_inj]
    split
    · rfl
    · exact findExtensionLoop_eq want l r' fuel h' (by simpa using hf)

/-- `find_extension` returns the first extension of the type. -/
theorem findExtension_eq (want : BitVec 16) {l : List Tagged} (off : Nat) (hlt : (encodeAll l).length < 2 ^ 64) :
    Span.bytes <$> findExtension ⟨off, encodeAll l⟩ want.toNat = (first want l).elim (.error .unsupported) .ok :=
  findExtensionLoop_eq want l _ _ (at_init off hlt) (Nat.lt_succ_of_le (length_le_encodeAll l))

theorem length_first_lt {want : BitVec 16} {l : List Tagged} {data : Bytes} (h : first want l = some data) :
    data.length < 256 ^ 2 := by
  obtain ⟨entry, -, rfl⟩ := Option.map_eq_some_iff.mp h
  exact entry.data.2

/-- `find_extension` and a check that only looks at the bytes. -/
theorem findExtension_check (want : BitVec 16) {l : List Tagged} (off : Nat) (hlt : (encodeAll l).length < 2 ^ 64)
    {Q : Span → Prop} {P : Bytes → Prop} (hQ : ∀ s : Span, s.bytes.length < 2 ^ 64 → (Q s ↔ P s.bytes)) :
    (∃ s, findExtension ⟨off, encodeAll l⟩ want.toNat = .ok s ∧ Q s) ↔ ∃ data, first want l = some data ∧ P data := by
  have h := findExtension_eq want off hlt
  have hfits (data : Bytes) (hd : first want l = some data) : data.length < 2 ^ 64 :=
    (length_first_lt hd).trans (by decide)
  refine ⟨fun hok => ?_, fun hspec => ?_⟩
  · obtain ⟨s, hs, hq⟩ := hok
    rw [hs, map_ok] at h
    cases hf : first want l with
    | none => rw [hf] at h; cases h
    | some data =>
      rw [hf] at h
      cases h
      exact ⟨s.bytes, rfl, (hQ s (hfits _ hf)).mp hq⟩
  · obtain ⟨data, hd, hp⟩ := hspec
    rw [hd, Option.elim_some, map_eq_ok] at h
    obtain ⟨s, hs, rfl⟩ := h
    exact ⟨s, hs, (hQ s (hfits _ hd)).mpr hp⟩

/-! ## Suites -/

theorem u16s_cons (v : BitVec 16) (l : List (BitVec 16)) : u16s (v :: l) = beBytes 2 v.toNat ++ u16s l := rfl

theorem length_u16s (l : List (BitVec 16)) : (u16s l).length = 2 * l.length := by
  induction l with
  | nil => rfl
  | cons v l ih =>
    rw [u16s_cons, List.length_append, length_beBytes, ih, List.length_cons]
    omega

theorem beNat_u16 (v : BitVec 16) : beNat (beBytes 2 v.toNat) = v.toNat :=
  (beNat_beBytes 2 v.toNat).trans (Nat.mod_eq_of_lt v.isLt)

theorem u16s_inj : ∀ {l m : List (BitVec 16)}, u16s l = u16s m → l = m
  | [], [], _ => rfl
  | [], w :: m, h => by simp [beBytes, u16s] at h
  | v :: l, [], h => by simp [beBytes, u16s] at h
  | v :: l, w :: m, h => by
    obtain ⟨hv, hl⟩ := List.append_inj h (by rw [length_beBytes, length_beBytes])
    have hvw : v.toNat = w.toNat := by
      rw [← beNat_u16 v, ← beNat_u16 w]
      exact congrArg beNat hv
    rw [BitVec.eq_of_toNat_eq hvw, u16s_inj hl]

/-- A flag that is set once a value is seen. -/
theorem found_cons (found : Bool) {c : Nat} (hc : c < 2 ^ 16) (v : BitVec 16) (l : List (BitVec 16)) :
    (found || v.toNat == c || decide (BitVec.ofNat 16 c ∈ l)) = (found || decide (BitVec.ofNat 16 c ∈ v :: l)) := by
  have hv : (v.toNat == c) = decide (BitVec.ofNat 16 c = v) := by
    rw [Bool.eq_iff_iff, beq_iff_eq, decide_eq_true_eq, ← BitVec.toNat_inj, BitVec.toNat_ofNat, Nat.mod_eq_of_lt hc,
      eq_comm]
  rw [hv, Bool.or_assoc, ← Bool.decide_or]
  simp only [List.mem_cons]

theorem readsList_suiteLoop : ReadsList suiteLoop (fun v : BitVec 16 => beBytes 2 v.toNat)
    fun found v => found || v.toNat == cipherSuite where
  ne_nil v := by simp [beBytes]
  stop h fuel found := by rw [suiteLoop, if_neg (fun hm => h.more.mp hm rfl)]
  turn {r v rest} h := by
    have hmore := h.more.mpr (by simp [beBytes])
    obtain ⟨hv, h'⟩ := h.uint .badLength v.isLt
    refine ⟨advance r 2, h', fun fuel found => ?_⟩
    rw [suiteLoop, if_pos hmore, Reader.u16, hv]
    rfl
  front {r rest fuel found t} h hnil hok := by
    rw [suiteLoop, if_pos (h.more.mpr hnil), bind_eq_ok] at hok
    obtain ⟨⟨suite, r'⟩, hs, -⟩ := hok
    obtain ⟨v, rest', -, hrest, -⟩ := h.of_u16 hs
    exact ⟨v, rest', hrest⟩

theorem foldl_found {c : Nat} (hc : c < 2 ^ 16) : ∀ (l : List (BitVec 16)) (found : Bool),
    l.foldl (fun found v => found || v.toNat == c) found = (found || decide (BitVec.ofNat 16 c ∈ l))
  | [], found => by simp
  | v :: l, found => by rw [List.foldl_cons, foldl_found hc l, found_cons found hc]

/-- The suites of a ClientHello are a list, and ours is one of them. -/
theorem suiteLoop_eq_ok {s : Span} {b : Bool} (hlt : s.bytes.length < 2 ^ 64) :
    suiteLoop (s.len + 1) false (.init s) = .ok b ↔
      ∃ l : List (BitVec 16), s.bytes = u16s l ∧ b = decide (0x1303 ∈ l) := by
  rw [readsList_suiteLoop.eq_ok_iff (s.len + 1) (at_init s.off hlt) (Nat.lt_succ_self _)]
  simp only [foldl_found (show cipherSuite < 2 ^ 16 by decide), Bool.false_or]
  rfl

/-! ## Versions -/

theorem exists_u16 {b : Bytes} (h : 2 ≤ b.length) : ∃ v : BitVec 16, b = beBytes 2 v.toNat ++ b.drop 2 := by
  have hlen : (b.take 2).length = 2 := by rw [List.length_take]; omega
  have hlt := beNat_lt (b.take 2)
  have hb := beBytes_beNat (b.take 2)
  rw [hlen] at hlt hb
  have hv : (BitVec.ofNat 16 (beNat (b.take 2))).toNat = beNat (b.take 2) :=
    (BitVec.toNat_ofNat _ _).trans (Nat.mod_eq_of_lt hlt)
  exact ⟨BitVec.ofNat 16 (beNat (b.take 2)), by rw [hv, hb, List.take_append_drop]⟩

theorem exists_u16s : ∀ (n : Nat) {b : Bytes}, b.length = 2 * n → ∃ l, b = u16s l
  | 0, b, h => ⟨[], List.length_eq_zero_iff.mp h⟩
  | n + 1, b, h => by
    obtain ⟨v, hv⟩ := exists_u16 (b := b) (by omega)
    obtain ⟨l, hl⟩ := exists_u16s n (b := b.drop 2) (by rw [List.length_drop]; omega)
    exact ⟨v :: l, by rw [u16s_cons, ← hl, ← hv]⟩

theorem versionLoop_eq : ∀ (l : List (BitVec 16)) (fuel : Nat) (found : Bool) (pre : Bytes), l.length < fuel →
    versionLoop (pre ++ u16s l) fuel found pre.length = .ok (found || decide (0xfefc ∈ l))
  | _, 0, _, _, hf => absurd hf (Nat.not_lt_zero _)
  | [], fuel + 1, found, pre, _ => by
    rw [versionLoop, if_neg (by simp [u16s])]
    simp
  | v :: l, fuel + 1, found, pre, hf => by
    have hread : readSlice (pre ++ u16s (v :: l)) pre.length 2 = .ok (beBytes 2 v.toNat) :=
      readSlice_append pre _ (u16s l) rfl rfl (length_beBytes _ _)
    have hfound := found_cons found (show dtls13Version < 2 ^ 16 by decide) v l
    have ih := versionLoop_eq l fuel (found || v.toNat == dtls13Version) (pre ++ beBytes 2 v.toNat) (by simpa using hf)
    rw [List.append_assoc, ← u16s_cons, List.length_append, length_beBytes] at ih
    rw [versionLoop, if_pos (by simp only [u16s_cons, List.length_append, length_beBytes]; omega), hread, map_ok, ok_bind, beNat_u16, ih]
    exact congrArg _ hfound

/-- The supported_versions of a ClientHello: a list of versions in a vector, and ours is one of them. -/
theorem checkVersions_eq_ok {s : Span} : checkVersions s = .ok () ↔ OffersVersion s.bytes := by
  have hloop (l : List (BitVec 16)) : versionLoop (vec 1 (u16s l)) ((vec 1 (u16s l)).length + 1) false 1 =
      .ok (decide (0xfefc ∈ l)) := by
    have := versionLoop_eq l ((vec 1 (u16s l)).length + 1) false (beBytes 1 (u16s l).length)
      (by rw [length_vec, length_u16s]; omega)
    rwa [length_beBytes, Bool.false_or] at this
  simp only [checkVersions, bind_eq_ok, failIf_eq_ok, exists_const]
  refine ⟨fun hok => ?_, fun hspec => ?_⟩
  · obtain ⟨-, b, hb, hlen, found, hf, hfound⟩ := hok
    have hs := eq_cons_of_readAt hb
    rw [Span.len] at hlen hf
    obtain ⟨versions, hv⟩ := exists_u16s (b.toNat / 2) (b := s.bytes.drop 1) (by rw [List.length_drop]; omega)
    have hb1 : beBytes 1 (u16s versions).length = [b] := by
      rw [← hv, List.length_drop, show s.bytes.length - 1 = b.toNat by omega, beBytes, beBytes, Nat.pow_zero, Nat.div_one,
        BitVec.ofNat_toNat, BitVec.setWidth_eq]
    rw [hv, ← hb1] at hs
    rw [hs, ← vec, hloop] at hf
    cases hf
    refine ⟨versions, ?_, hs, ?_⟩
    · rw [← hv, List.length_drop]
      omega
    · simpa using hfound
  · obtain ⟨versions, hlt, hs, hmem⟩ := hspec
    have hlen := length_vec 1 (u16s versions)
    have heven := length_u16s versions
    rw [Span.len, hs]
    refine ⟨by omega, BitVec.ofNat 8 (u16s versions).length, ?_, ?_, _, hloop versions, ?_⟩
    · rw [vec, beBytes, Nat.pow_zero, Nat.div_one]
      rfl
    · rw [BitVec.toNat_ofNat, Nat.mod_eq_of_lt hlt]
      omega
    · simpa using hmem

/-! ## Shares -/

/-- What the loop does with a share. -/
theorem shareStep_eq (entry : Tagged) (off : Nat) (found : Option (BytesN 32)) :
    (if entry.tag.toNat = namedGroupX25519 ∧ (⟨off, entry.data.1⟩ : Span).len = 32 then some <$> bytesN 32 entry.data.1
      else .ok found : Result (Option (BytesN 32))) = .ok ((x25519 entry).or found) := by
  have htag : entry.tag.toNat = namedGroupX25519 ↔ entry.tag = 0x001D := by
    rw [← BitVec.toNat_inj]
    rfl
  by_cases h : entry.tag = 0x001D ∧ entry.data.1.length = 32
  · rw [if_pos ⟨htag.mpr h.1, h.2⟩, x25519, dif_pos h]
    exact congrArg (some <$> ·) (bytesN_eq ⟨entry.data.1, h.2⟩)
  · rw [if_neg fun hc => h ⟨htag.mp hc.1, hc.2⟩, x25519, dif_neg h]
    rfl

theorem lastX25519_cons (entry : Tagged) (l : List Tagged) :
    lastX25519 (entry :: l) = (lastX25519 l).or (x25519 entry) := by
  cases h : x25519 entry with
  | none => rw [lastX25519, List.filterMap_cons_none h, Option.or_none, lastX25519]
  | some key =>
    rw [lastX25519, List.filterMap_cons_some h, List.getLast?_cons, lastX25519]
    cases (l.filterMap x25519).getLast? <;> rfl

theorem readsList_shareLoop : ReadsList shareLoop Tagged.encode fun found entry => (x25519 entry).or found where
  ne_nil := encode_ne_nil
  stop h fuel found := by rw [shareLoop, if_neg (fun hm => h.more.mp hm rfl)]
  turn {r entry rest} h := by
    have hmore := h.more.mpr (by simp [encode_ne_nil])
    obtain ⟨r', off, hread, h'⟩ := readKeyShareEntry_eq h
    refine ⟨r', h', fun fuel found => ?_⟩
    rw [shareLoop, if_pos hmore, hread]
    simp only [shareStep_eq, ok_bind]
  front {r rest fuel found t} h hnil hok := by
    rw [shareLoop, if_pos (h.more.mpr hnil), bind_eq_ok] at hok
    obtain ⟨⟨group, key, r'⟩, hread, -⟩ := hok
    obtain ⟨entry, rest', -, -, hrest, -⟩ := of_readKeyShareEntry h hread
    exact ⟨entry, rest', hrest⟩

theorem foldl_x25519 : ∀ (l : List Tagged) (found : Option (BytesN 32)),
    l.foldl (fun found entry => (x25519 entry).or found) found = (lastX25519 l).or found
  | [], _ => rfl
  | entry :: l, found => by rw [List.foldl_cons, foldl_x25519 l, lastX25519_cons, Option.or_assoc]

/-- The shares are a list, and the last of X25519 is taken. -/
theorem shareLoop_eq_ok {s : Span} {key : Option (BytesN 32)} (hlt : s.bytes.length < 2 ^ 64) :
    shareLoop (s.len + 1) none (.init s) = .ok key ↔ ∃ l, s.bytes = encodeAll l ∧ key = lastX25519 l := by
  rw [readsList_shareLoop.eq_ok_iff (s.len + 1) (at_init s.off hlt) (Nat.lt_succ_self _)]
  simp only [foldl_x25519, Option.or_none]
  rfl

/-- The key_share of a ClientHello: a list of shares in a vector, of which the last of X25519 is taken, and then
anything. -/
theorem clientKeyShare_eq_ok {s : Span} {key : BytesN 32} (hlt : s.bytes.length < 2 ^ 64) :
    clientKeyShare s = .ok key ↔ OffersShare s.bytes key := by
  have h : At (Reader.init s) s.bytes := at_init s.off hlt
  have hloop (b : Opaque 2) (off : Nat) (k : Option (BytesN 32)) :
      shareLoop (b.1.length + 1) none (.init ⟨off, b.1⟩) = .ok k ↔ ∃ l, b.1 = encodeAll l ∧ k = lastX25519 l :=
    shareLoop_eq_ok (s := ⟨off, b.1⟩) (b.2.trans (by decide))
  refine ⟨fun hk => ?_, fun hspec => ?_⟩
  · simp only [clientKeyShare, bind_eq_ok, Prod.exists] at hk
    obtain ⟨_, r₁, hlen, ⟨off, data⟩, _, hview, found, hfound, hk⟩ := hk
    obtain ⟨b, rest, rfl, hs, -⟩ := h.of_vector hlen hview
    obtain ⟨shares, hshares, rfl⟩ := (hloop b off found).mp hfound
    refine ⟨shares, rest, hshares ▸ b.2, hshares ▸ hs, ?_⟩
    cases hl : lastX25519 shares with
    | none => rw [hl] at hk; cases hk
    | some k => rw [hl] at hk; cases hk; rfl
  · obtain ⟨shares, rest, hfits, hs, hlast⟩ := hspec
    rw [hs] at h
    obtain ⟨hlen, hview, -, -⟩ := h.vector (b := ⟨encodeAll shares, hfits⟩) .unsupported .unsupported
    have hfound := (hloop ⟨encodeAll shares, hfits⟩ ((Reader.init s).span.off + ((Reader.init s).pos + 2)) (some key)).mpr
      ⟨shares, rfl, hlast.symm⟩
    simp only [clientKeyShare, Reader.u16, hlen, hview, ok_bind, Span.len, hfound]
    rfl

/-! ## ClientHello -/

/-- The checks of `nd_client_hello_parse`, once it has the fields. -/
def clientChecks (random : BytesN 32) (csData extBlock : Span) : Result HelloParams := do
  let found ← suiteLoop (csData.len + 1) false (.init csData)
  failIf (found = false) .unsupported
  let svData ← findExtension extBlock extSupportedVersions
  checkVersions svData
  let ksData ← findExtension extBlock extKeyShare
  let key ← clientKeyShare ksData
  return ⟨random, key⟩

/-- Where the suites of a ClientHello are. -/
def suitesOff (m : ClientFrame) : Nat := 0 + (0 + 2 + 32 + 1 + m.sessionId.1.length + 1 + m.cookie.1.length + 2)

/-- Where the extensions of a ClientHello are. -/
def clientBlockOff (m : ClientFrame) : Nat :=
  0 + (0 + 2 + 32 + 1 + m.sessionId.1.length + 1 + m.cookie.1.length + 2 + m.cipherSuites.1.length + 1 +
    m.compressionMethods.1.length + 2)

/-- `nd_client_hello_parse` of the fields of a ClientHello, with anything behind them. -/
theorem clientHelloParse_frame (m : ClientFrame) {tail : Bytes} (hlt : (m.encode ++ tail).length < 2 ^ 64) :
    clientHelloParse (m.encode ++ tail) =
      clientChecks m.random ⟨suitesOff m, m.cipherSuites.1⟩ ⟨clientBlockOff m, m.extensions.1⟩ := by
  have h := at_init 0 hlt
  simp only [clientHelloParse, Span.ofBytes]
  generalize hr : Reader.init ⟨0, m.encode ++ tail⟩ = r at h ⊢
  simp only [ClientFrame.encode, List.append_assoc] at h
  obtain ⟨hver, h⟩ := h.uint .truncated m.legacyVersion.isLt
  have hrnd := h.bytes .truncated m.random.2.symm
  replace h := h.next
  rw [m.random.2] at h
  obtain ⟨hsid, -, hsid', h⟩ := h.vector .truncated .truncated
  obtain ⟨hcookie, -, hcookie', h⟩ := h.vector .truncated .truncated
  obtain ⟨hcs, hcs', -, h⟩ := h.vector .truncated .badLength
  obtain ⟨hcomp, -, hcomp', h⟩ := h.vector .truncated .truncated
  obtain ⟨hel, hel', -, -⟩ := h.vector .truncated .badLength
  simp only [Reader.u16, Reader.u8, hver, hrnd, hsid, hsid', hcookie, hcookie', hcs, hcs', hcomp, hcomp', hel, hel',
    ok_bind, bytesN_eq]
  rw [← hr]
  rfl

/-- What `nd_client_hello_parse` accepts has the fields of a ClientHello at its front, and its suites are a list. -/
theorem exists_clientFrame {buf : Bytes} {hello : HelloParams} (hlt : buf.length < 2 ^ 64)
    (hp : clientHelloParse buf = .ok hello) :
    ∃ (m : ClientFrame) (tail : Bytes), buf = m.encode ++ tail ∧ ∃ suites, m.cipherSuites.1 = u16s suites := by
  simp only [clientHelloParse, bind_eq_ok, Prod.exists, failIf_eq_ok, exists_const] at hp
  obtain ⟨_, _, hver, _, _, hrnd, random, hrandom, _, _, hsid, _, hsid', _, _, hcookie, _, hcookie', _, _, hcs,
    csData, _, hcs', found, hfound, -, _, _, hcomp, _, hcomp', _, _, hel, extBlock, _, hel', -⟩ := hp
  obtain ⟨v, _, -, rfl, h₁⟩ := (at_init 0 hlt).of_u16 hver
  obtain ⟨_, rfl, -, h₂⟩ := h₁.of_bytes hrnd
  obtain ⟨sid, _, rfl, h₃⟩ := h₂.of_vector_skip hsid hsid'
  obtain ⟨cookie, _, rfl, h₄⟩ := h₃.of_vector_skip hcookie hcookie'
  obtain ⟨cs, _, hdata, rfl, h₅⟩ := h₄.of_vector hcs hcs'
  obtain ⟨comp, _, rfl, h₆⟩ := h₅.of_vector_skip hcomp hcomp'
  obtain ⟨block, tail, -, rfl, -⟩ := h₆.of_vector hel hel'
  cases bytesN_eq_ok.mp hrandom
  obtain ⟨suites, hsuites, -⟩ := (suiteLoop_eq_ok (by rw [hdata]; exact cs.2.trans (by decide))).mp hfound
  refine ⟨⟨v, random, sid, cookie, cs, comp, block⟩, tail, ?_, suites, by rw [← hdata, hsuites]⟩
  simp only [ClientFrame.encode, List.append_assoc]

/-- The checks of `nd_client_hello_parse` on the lists of a ClientHello. -/
theorem clientChecks_eq_ok {random : BytesN 32} {suites : List (BitVec 16)} {l : List Tagged} {off off' : Nat}
    {hello : HelloParams} (hsuites : (u16s suites).length < 2 ^ 64) (hl : (encodeAll l).length < 2 ^ 64) :
    clientChecks random ⟨off, u16s suites⟩ ⟨off', encodeAll l⟩ = .ok hello ↔
      hello.random = random ∧ 0x1303 ∈ suites ∧ (∃ data, first 43 l = some data ∧ OffersVersion data) ∧
      ∃ data, first 51 l = some data ∧ OffersShare data hello.x25519PublicKey := by
  rw [← findExtension_check 43 off' hl fun s _ => checkVersions_eq_ok (s := s),
    ← findExtension_check 51 off' hl fun s hs => clientKeyShare_eq_ok (s := s) hs]
  refine ⟨fun h => ?_, fun hspec => ?_⟩
  · simp only [clientChecks, bind_eq_ok, failIf_eq_ok, exists_const, pure_eq_ok, Except.ok.injEq] at h
    obtain ⟨found, hfound, hne, sv, hsv, _, hver, ks, hks, key, hkey, rfl⟩ := h
    obtain ⟨suites', hs, rfl⟩ := (suiteLoop_eq_ok hsuites).mp hfound
    cases u16s_inj hs
    exact ⟨rfl, by simpa using hne, ⟨sv, hsv, hver⟩, ks, hks, hkey⟩
  · obtain ⟨rfl, hmem, ⟨sv, hsv, hver⟩, ks, hks, hkey⟩ := hspec
    have hfound := (suiteLoop_eq_ok (s := ⟨off, u16s suites⟩) hsuites).mpr ⟨suites, rfl, rfl⟩
    change findExtension _ extSupportedVersions = _ at hsv
    change findExtension _ extKeyShare = _ at hks
    rw [clientChecks, hfound, ok_bind, failIf_bind (by simpa using hmem)]
    simp only [hsv, hver, hks, hkey, ok_bind]
    rfl

theorem length_clientFrame (m : ClientFrame) : m.encode.length = 41 + m.sessionId.1.length + m.cookie.1.length +
    m.cipherSuites.1.length + m.compressionMethods.1.length + m.extensions.1.length := by
  simp only [ClientFrame.encode, List.length_append, length_beBytes, length_vec, m.random.2]
  omega

theorem length_clientFrame_lt (m : ClientFrame) : m.encode.length < 2 ^ 64 := by
  have := m.sessionId.2
  have := m.cookie.2
  have := m.cipherSuites.2
  have := m.compressionMethods.2
  have := m.extensions.2
  rw [length_clientFrame]
  omega

/-- `nd_client_hello_parse` of a ClientHello. -/
theorem clientHelloParse_iff (m : Spec.Grammar.ClientHello) (hello : HelloParams) :
    clientHelloParse m.encode = .ok hello ↔ hello.random = m.random ∧ m.Offers hello.x25519PublicKey := by
  have hlt := length_clientFrame_lt m.frame
  rw [← List.append_nil m.frame.encode] at hlt
  rw [← List.append_nil m.encode, Spec.Grammar.ClientHello.encode, clientHelloParse_frame m.frame hlt]
  refine (clientChecks_eq_ok (m.cipherSuites.2.trans (by decide)) (m.extensions.2.trans (by decide))).trans ?_
  refine ⟨fun hok => ?_, fun hspec => ?_⟩
  · obtain ⟨hr, hs, hv, hk⟩ := hok
    exact ⟨hr, hs, hv, hk⟩
  · obtain ⟨hr, hs, hv, hk⟩ := hspec
    exact ⟨hr, hs, hv, hk⟩

/-! ## ServerHello -/

/-- The checks of `nd_server_hello_parse`, once it has the fields. -/
def serverChecks (random : BytesN 32) (cipherSuite : Nat) (extBlock : Span) : Result ServerHello := do
  let svData ← findExtension extBlock extSupportedVersions
  failIf (svData.len ≠ 2) .unsupported
  let selectedVersion ← beNat <$> readSlice svData.bytes 0 2
  failIf (selectedVersion ≠ dtls13Version) .unsupported
  let ksData ← findExtension extBlock extKeyShare
  let (group, key, _) ← readKeyShareEntry (.init ksData)
  failIf (group ≠ namedGroupX25519 ∨ key.len ≠ 32) .unsupported
  let keyShare ← bytesN 32 key.bytes
  return ⟨random, cipherSuite, selectedVersion, keyShare⟩

/-- Where the extensions of a ServerHello are. -/
def serverBlockOff (m : ServerFrame) : Nat := 0 + (0 + 2 + 32 + 1 + m.sessionIdEcho.1.length + 2 + 1 + 2)

/-- `nd_server_hello_parse` of the fields of a ServerHello, with anything behind them. -/
theorem serverHelloParse_frame (m : ServerFrame) {tail : Bytes} (hlt : (m.encode ++ tail).length < 2 ^ 64) :
    serverHelloParse (m.encode ++ tail) = serverChecks m.random m.cipherSuite.toNat ⟨serverBlockOff m, m.extensions.1⟩ := by
  have h := at_init 0 hlt
  simp only [serverHelloParse, Span.ofBytes]
  generalize hr : Reader.init ⟨0, m.encode ++ tail⟩ = r at h ⊢
  simp only [ServerFrame.encode, List.append_assoc] at h
  obtain ⟨hver, h⟩ := h.uint .truncated m.legacyVersion.isLt
  have hrnd := h.bytes .truncated m.random.2.symm
  replace h := h.next
  rw [m.random.2] at h
  obtain ⟨hsid, -, hsid', h⟩ := h.vector .truncated .truncated
  obtain ⟨hcs, h⟩ := h.uint .truncated m.cipherSuite.isLt
  obtain ⟨hcomp, h⟩ := h.uint .truncated m.compressionMethod.isLt
  obtain ⟨hel, hel', -, -⟩ := h.vector .truncated .badLength
  simp only [Reader.u16, Reader.u8, hver, hrnd, hsid, hsid', hcs, hcomp, hel, hel', ok_bind, bytesN_eq]
  rw [← hr]
  rfl

/-- What `nd_server_hello_parse` accepts has the fields of a ServerHello at its front. -/
theorem exists_serverFrame {buf : Bytes} {hello : ServerHello} (hlt : buf.length < 2 ^ 64)
    (hp : serverHelloParse buf = .ok hello) : ∃ (m : ServerFrame) (tail : Bytes), buf = m.encode ++ tail := by
  simp only [serverHelloParse, bind_eq_ok, Prod.exists] at hp
  obtain ⟨_, _, hver, _, _, hrnd, random, hrandom, _, _, hsid, _, hsid', _, _, hcs, comp, _, hcomp, _, _, hel, _, _, hel',
    -⟩ := hp
  obtain ⟨v, _, -, rfl, h₁⟩ := (at_init 0 hlt).of_u16 hver
  obtain ⟨_, rfl, -, h₂⟩ := h₁.of_bytes hrnd
  obtain ⟨sid, _, rfl, h₃⟩ := h₂.of_vector_skip hsid hsid'
  obtain ⟨cs, _, -, rfl, h₄⟩ := h₃.of_u16 hcs
  obtain ⟨_, rfl, hcomp, h₅⟩ := h₄.of_uint hcomp
  obtain ⟨block, tail, -, rfl, -⟩ := h₅.of_vector hel hel'
  cases bytesN_eq_ok.mp hrandom
  have hcomp : (BitVec.ofNat 8 comp).toNat = comp := (BitVec.toNat_ofNat _ _).trans (Nat.mod_eq_of_lt hcomp)
  refine ⟨⟨v, random, sid, cs, BitVec.ofNat 8 comp, block⟩, tail, ?_⟩
  simp only [ServerFrame.encode, List.append_assoc, hcomp]

/-- The supported_versions of a ServerHello: the version. -/
theorem selectedVersion_iff {s : Span} {v : Nat} :
    (s.len = 2 ∧ beNat <$> readSlice s.bytes 0 2 = .ok v ∧ v = dtls13Version) ↔
      v = dtls13Version ∧ s.bytes = beBytes 2 0xfefc := by
  refine ⟨fun hok => ?_, fun hspec => ?_⟩
  · obtain ⟨hlen, hv, rfl⟩ := hok
    obtain ⟨b, hb, hbv⟩ := map_eq_ok.mp hv
    obtain ⟨-, rfl⟩ := readSlice_eq_ok.mp hb
    rw [List.drop_zero, List.take_of_length_le (Nat.le_of_eq hlen)] at hbv
    exact ⟨rfl, beNat_inj hlen hbv⟩
  · obtain ⟨rfl, hs⟩ := hspec
    rw [Span.len, hs]
    exact ⟨rfl, rfl, rfl⟩

/-- The key_share of a ServerHello: a share of X25519, and then anything. -/
theorem selectedShare_iff {s : Span} {k : BytesN 32} (hlt : s.bytes.length < 2 ^ 64) :
    (∃ group key r, readKeyShareEntry (.init s) = .ok (group, key, r) ∧ ¬ (group ≠ namedGroupX25519 ∨ key.len ≠ 32) ∧
      bytesN 32 key.bytes = .ok k) ↔ SelectsShare s.bytes k := by
  have h : At (Reader.init s) s.bytes := at_init s.off hlt
  refine ⟨fun hok => ?_, fun hspec => ?_⟩
  · obtain ⟨group, key, r, hread, hc, hk⟩ := hok
    obtain ⟨entry, rest, rfl, hdata, hs, -⟩ := of_readKeyShareEntry h hread
    rw [not_or, not_not, not_not, Span.len, hdata] at hc
    rw [hdata] at hk
    have hx : entry.tag = 0x001D ∧ entry.data.1.length = 32 := ⟨BitVec.eq_of_toNat_eq hc.1, hc.2⟩
    refine ⟨entry, rest, hs, ?_⟩
    rw [x25519, dif_pos hx]
    exact congrArg some (Subtype.ext (bytesN_eq_ok.mp hk))
  · obtain ⟨entry, rest, hs, hx⟩ := hspec
    rw [hs] at h
    obtain ⟨r', off, hread, -⟩ := readKeyShareEntry_eq h
    unfold x25519 at hx
    split at hx
    · rename_i hc
      cases hx
      refine ⟨_, _, r', hread, ?_, bytesN_eq ⟨entry.data.1, hc.2⟩⟩
      rw [not_or, not_not, not_not]
      exact ⟨congrArg BitVec.toNat hc.1, hc.2⟩
    · cases hx

/-- The checks of `nd_server_hello_parse` on the extensions of a ServerHello. -/
theorem serverChecks_eq_ok {random : BytesN 32} {suite : Nat} {l : List Tagged} {off : Nat} {hello : ServerHello}
    (hl : (encodeAll l).length < 2 ^ 64) : serverChecks random suite ⟨off, encodeAll l⟩ = .ok hello ↔
      hello.random = random ∧ hello.cipherSuite = suite ∧ hello.selectedVersion = dtls13Version ∧
      (∃ data, first 43 l = some data ∧ hello.selectedVersion = dtls13Version ∧ data = beBytes 2 0xfefc) ∧
      ∃ data, first 51 l = some data ∧ SelectsShare data hello.keyShare := by
  rw [← findExtension_check 43 off hl fun s _ => selectedVersion_iff (s := s) (v := hello.selectedVersion),
    ← findExtension_check 51 off hl fun s hs => selectedShare_iff (s := s) hs]
  refine ⟨fun h => ?_, fun hspec => ?_⟩
  · simp only [serverChecks, bind_eq_ok, failIf_eq_ok, exists_const, pure_eq_ok, Except.ok.injEq, Prod.exists] at h
    obtain ⟨sv, hsv, hlen, v, hv, hver, ks, hks, group, key, r, hread, hc, k, hk, rfl⟩ := h
    rw [not_not] at hlen hver
    exact ⟨rfl, rfl, hver, ⟨sv, hsv, hlen, hv, hver⟩, ks, hks, group, key, r, hread, hc, hk⟩
  · obtain ⟨rfl, rfl, -, ⟨sv, hsv, hlen, hv, hver⟩, ks, hks, group, key, r, hread, hc, hk⟩ := hspec
    change findExtension _ extSupportedVersions = _ at hsv
    change findExtension _ extKeyShare = _ at hks
    rw [serverChecks, hsv, ok_bind, failIf_bind (not_not.mpr hlen), hv, ok_bind, failIf_bind (not_not.mpr hver), hks,
      ok_bind, hread]
    refine (failIf_bind hc).trans ?_
    rw [hk]
    rfl

theorem length_serverFrame (m : ServerFrame) :
    m.encode.length = 40 + m.sessionIdEcho.1.length + m.extensions.1.length := by
  simp only [ServerFrame.encode, List.length_append, length_beBytes, length_vec, m.random.2]
  omega

theorem length_serverFrame_lt (m : ServerFrame) : m.encode.length < 2 ^ 64 := by
  have := m.sessionIdEcho.2
  have := m.extensions.2
  rw [length_serverFrame]
  omega

/-- `nd_server_hello_parse` of a ServerHello. -/
theorem serverHelloParse_iff (m : Spec.Grammar.ServerHello) (hello : ServerHello) :
    serverHelloParse m.encode = .ok hello ↔ hello.random = m.random ∧ hello.cipherSuite = m.cipherSuite.toNat ∧
      hello.selectedVersion = dtls13Version ∧ m.Selects hello.keyShare := by
  have hlt := length_serverFrame_lt m.frame
  rw [← List.append_nil m.frame.encode] at hlt
  rw [← List.append_nil m.encode, Spec.Grammar.ServerHello.encode, serverHelloParse_frame m.frame hlt]
  refine (serverChecks_eq_ok (m.extensions.2.trans (by decide))).trans ?_
  refine ⟨fun hok => ?_, fun hspec => ?_⟩
  · obtain ⟨hr, hs, hv, ⟨_, hdata, -, rfl⟩, hk⟩ := hok
    exact ⟨hr, hs, hv, hdata, hk⟩
  · obtain ⟨hr, hs, hv, hdata, hk⟩ := hspec
    exact ⟨hr, hs, hv, ⟨_, hdata, hv, rfl⟩, hk⟩

/-! ## What the two sides send -/

theorem x25519_key (key : BytesN 32) (h : key.1.length < 256 ^ 2) : x25519 ⟨0x001D, key.1, h⟩ = some key := by
  rw [x25519, dif_pos ⟨rfl, key.2⟩]

/-- What the client sends is a ClientHello with its random that offers its key. -/
theorem exists_clientHello (random key : BytesN 32) : ∃ m : Spec.Grammar.ClientHello,
    m.encode = Spec.Wire.clientHello random.1 key.1 ∧ m.random = random ∧ m.Offers key := by
  have hkey : key.1.length < 256 ^ 2 := by rw [key.2]; decide
  have hshare : (Tagged.encode ⟨0x001D, key.1, hkey⟩).length = 36 := by simp [Tagged.encode, vec, key.2]
  have hks : (vec 2 (Tagged.encode ⟨0x001D, key.1, hkey⟩)).length = 38 := by rw [length_vec, hshare]
  let exts : List Tagged := [⟨43, vec 1 (beBytes 2 0xfefc), by decide⟩, ⟨10, vec 2 (beBytes 2 0x001D), by decide⟩,
    ⟨51, vec 2 (Tagged.encode ⟨0x001D, key.1, hkey⟩), by rw [hks]; decide⟩,
    ⟨13, vec 2 (beBytes 2 0x0403 ++ beBytes 2 0x0804 ++ beBytes 2 0x0807), by decide⟩]
  have hexts : encodeAll exts = (Spec.Wire.clientExtensions key.1).flatMap extension := rfl
  have hlen : (encodeAll exts).length = 69 := by
    rw [hexts]
    simp [Spec.Wire.clientExtensions, extension, vec, keyShareEntry, key.2]
  refine ⟨⟨0xfefd, random, ⟨[], by decide⟩, ⟨[], by decide⟩, ⟨[0x1303], by decide⟩, ⟨beBytes 1 0, by decide⟩,
    ⟨exts, by rw [hlen]; decide⟩⟩, ?_, rfl, ⟨List.mem_singleton_self _, ?_, ?_⟩⟩
  · simp only [Spec.Wire.clientHello, List.append_assoc]
    rfl
  · exact ⟨_, rfl, [0xfefc], by decide, rfl, by decide⟩
  · have hone : encodeAll [⟨0x001D, key.1, hkey⟩] = Tagged.encode ⟨0x001D, key.1, hkey⟩ := List.append_nil _
    refine ⟨_, rfl, [⟨0x001D, key.1, hkey⟩], [], ?_, ?_, ?_⟩
    · rw [hone, hshare]
      decide
    · rw [hone, List.append_nil]
    · rw [lastX25519_cons, x25519_key]
      rfl

/-- What the server sends is a ServerHello with its random that selects its key. -/
theorem exists_serverHello (random key : BytesN 32) : ∃ m : Spec.Grammar.ServerHello,
    m.encode = Spec.Wire.serverHello random.1 key.1 ∧ m.random = random ∧ m.cipherSuite = 0x1303 ∧ m.Selects key := by
  have hkey : key.1.length < 256 ^ 2 := by rw [key.2]; decide
  have hshare : (Tagged.encode ⟨0x001D, key.1, hkey⟩).length = 36 := by simp [Tagged.encode, vec, key.2]
  let exts : List Tagged := [⟨43, beBytes 2 0xfefc, by decide⟩,
    ⟨51, Tagged.encode ⟨0x001D, key.1, hkey⟩, by rw [hshare]; decide⟩]
  have hexts : encodeAll exts = (Spec.Wire.serverExtensions key.1).flatMap extension := rfl
  have hlen : (encodeAll exts).length = 46 := by
    rw [hexts]
    simp [Spec.Wire.serverExtensions, extension, vec, keyShareEntry, key.2]
  refine ⟨⟨0xfefd, random, ⟨[], by decide⟩, 0x1303, 0, ⟨exts, by rw [hlen]; decide⟩⟩, ?_, rfl, rfl, ⟨rfl, ?_⟩⟩
  · simp only [Spec.Wire.serverHello, List.append_assoc]
    rfl
  · exact ⟨_, rfl, ⟨0x001D, key.1, hkey⟩, [], (List.append_nil _).symm, x25519_key key hkey⟩

/-- `nd_client_hello_parse` of what the client sends. -/
theorem clientHelloParse_eq (random key : BytesN 32) :
    clientHelloParse (Spec.Wire.clientHello random.1 key.1) = .ok ⟨random, key⟩ := by
  obtain ⟨m, hm, hrandom, hoffers⟩ := exists_clientHello random key
  rw [← hm]
  exact (clientHelloParse_iff m _).mpr ⟨hrandom.symm, hoffers⟩

/-- `nd_server_hello_parse` of what the server sends. -/
theorem serverHelloParse_eq (random key : BytesN 32) :
    serverHelloParse (Spec.Wire.serverHello random.1 key.1) = .ok ⟨random, cipherSuite, dtls13Version, key⟩ := by
  obtain ⟨m, hm, hrandom, hsuite, hselects⟩ := exists_serverHello random key
  rw [← hm]
  exact (serverHelloParse_iff m _).mpr ⟨hrandom.symm, by rw [hsuite]; rfl, rfl, hselects⟩

/-- The hellos: what the parsers return for every hello, and that the serializers write hellos that the parsers read
back. -/
theorem hello_parse_iff :
    (∀ (m : Spec.Grammar.ClientHello) (hello : HelloParams),
      clientHelloParse m.encode = .ok hello ↔ hello.random = m.random ∧ m.Offers hello.x25519PublicKey) ∧
    (∀ (m : Spec.Grammar.ServerHello) (hello : ServerHello),
      serverHelloParse m.encode = .ok hello ↔ hello.random = m.random ∧ hello.cipherSuite = m.cipherSuite.toNat ∧
        hello.selectedVersion = dtls13Version ∧ m.Selects hello.keyShare) ∧
    (∀ (params : HelloParams) (cap : BitVec 64),
      if 113 ≤ cap.toNat then
        ∃ m : Spec.Grammar.ClientHello, clientHelloSerialize params cap.toNat = .ok m.encode ∧
          clientHelloParse m.encode = .ok params
      else clientHelloSerialize params cap.toNat = .error .badLength) ∧
    ∀ (params : HelloParams) (cap : BitVec 64),
      if 86 ≤ cap.toNat then
        ∃ m : Spec.Grammar.ServerHello, serverHelloSerialize params cap.toNat = .ok m.encode ∧
          serverHelloParse m.encode = .ok ⟨params.random, cipherSuite, dtls13Version, params.x25519PublicKey⟩
      else serverHelloSerialize params cap.toNat = .error .badLength := by
  refine ⟨clientHelloParse_iff, serverHelloParse_iff, ?_, ?_⟩
  · intro params cap
    rw [clientHelloSerialize_cap params cap.isLt]
    split
    · obtain ⟨m, hm, -⟩ := exists_clientHello params.random params.x25519PublicKey
      exact ⟨m, by rw [hm], by rw [hm, clientHelloParse_eq]⟩
    · rfl
  · intro params cap
    rw [serverHelloSerialize_cap params cap.isLt]
    split
    · obtain ⟨m, hm, -⟩ := exists_serverHello params.random params.x25519PublicKey
      exact ⟨m, by rw [hm], by rw [hm, serverHelloParse_eq]⟩
    · rfl

end ND.Proof.Hello
