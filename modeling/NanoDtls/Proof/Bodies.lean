import NanoDtls.Framework.Pieces
import NanoDtls.Proof.Hello
import NanoDtls.Proof.Messages

/-!
# Which accepted bodies are whole messages

The parsers of the handshake bodies stop once they have what they need. What
one accepts is the encoding of a message if and only if the length fields of
the input lead to its end: those of the fields to the end of the input, those
of the entries to the end of their list (`Ends`, `isMessage_iff_ends`). Only
the parsers of EncryptedExtensions and CertificateVerify reject bytes behind
the last field (`accepts_append`).
-/

namespace ND.Proof.Bodies

open ND.Impl Hello Messages
open Proof.Hello Proof.Messages
open Spec.Wire (vec length_vec)
open Spec.Grammar (Opaque Tagged Extensions u16s encodeAll first x25519 ClientFrame ServerFrame EntryFrame
  CertificateFrame CertificateEntry)

/-! ## Length fields -/

/-- The number in the `n` bytes at `pos`. -/
def lenAt (n pos : Nat) (b : Bytes) : Nat := beNat ((b.drop pos).take n)

/-- The end of the vector at `pos`, by its length field. -/
def afterVec (n : Nat) (b : Bytes) (pos : Nat) : Nat := pos + n + lenAt n pos b

theorem lenAt_append {n v : Nat} (hv : v < 256 ^ n) (pre post : Bytes) :
    lenAt n pre.length (pre ++ (beBytes n v ++ post)) = v := by
  rw [lenAt, List.drop_left, List.take_left' (length_beBytes n v), beNat_beBytes, Nat.mod_eq_of_lt hv]

theorem lenAt_vec {n : Nat} (pre : Bytes) (d : Opaque n) (post : Bytes) :
    lenAt n pre.length (pre ++ (vec n d.1 ++ post)) = d.1.length := by
  rw [vec, List.append_assoc, lenAt_append d.2]

/-- A vector ends where the bytes after it begin. -/
theorem afterVec_eq {n pos : Nat} {b : Bytes} (pre : Bytes) (d : Opaque n) (post : Bytes)
    (hb : b = pre ++ (vec n d.1 ++ post)) (hpos : pos = pre.length) :
    afterVec n b pos = (pre ++ vec n d.1).length := by
  rw [hb, hpos, afterVec, lenAt_vec, List.length_append, length_vec, Nat.add_assoc]

theorem afterVec_front {n : Nat} (d : Opaque n) (post : Bytes) : afterVec n (vec n d.1 ++ post) 0 = (vec n d.1).length :=
  afterVec_eq [] d post rfl rfl

/-- A vector ends a string if its length field leads to the end. -/
theorem afterVec_eq_length_iff {n : Nat} (pre : Bytes) (d : Opaque n) (rest : Bytes) :
    afterVec n (pre ++ (vec n d.1 ++ rest)) pre.length = (pre ++ (vec n d.1 ++ rest)).length ↔ rest = [] := by
  rw [afterVec_eq pre d rest rfl rfl, ← List.append_assoc]
  generalize pre ++ vec n d.1 = front
  rw [List.length_append, Nat.left_eq_add, List.length_eq_zero_iff]

/-- What is long enough for its length field begins with a vector. -/
theorem exists_vec {n : Nat} {b : Bytes} (h : afterVec n b 0 ≤ b.length) :
    ∃ (d : Opaque n) (rest : Bytes), b = vec n d.1 ++ rest := by
  rw [afterVec, Nat.zero_add, lenAt, List.drop_zero] at h
  have hn : (b.take n).length = n := by rw [List.length_take]; omega
  have hlt := beNat_lt (b.take n)
  have hlen := beBytes_beNat (b.take n)
  rw [hn] at hlt hlen
  have hd : ((b.drop n).take (beNat (b.take n))).length = beNat (b.take n) := by
    rw [List.length_take, List.length_drop]
    omega
  have hvec : vec n ((b.drop n).take (beNat (b.take n))) = b.take n ++ (b.drop n).take (beNat (b.take n)) := by
    rw [vec, hd, hlen]
  refine ⟨⟨(b.drop n).take (beNat (b.take n)), hd.trans_lt hlt⟩, (b.drop n).drop (beNat (b.take n)), ?_⟩
  rw [hvec, List.append_assoc, List.take_append_drop, List.take_append_drop]

/-! ## Extensions -/

/-- The size of the extension at the front. -/
def extensionSize (b : Bytes) : Nat := afterVec 2 b 2

/-- The length fields of extensions lead to the end. -/
def extensionsEnd (b : Bytes) : Bool := covers extensionSize (fun _ => true) (b.length + 1) b

theorem extensionSize_encode (e : Tagged) (rest : Bytes) : extensionSize (e.encode ++ rest) = e.encode.length :=
  afterVec_eq (beBytes 2 e.tag.toNat) e.data rest (by rw [Tagged.encode, List.append_assoc]) (length_beBytes _ _).symm

theorem exists_extension {b : Bytes} (h : extensionSize b ≤ b.length) :
    ∃ (e : Tagged) (rest : Bytes), b = e.encode ++ rest := by
  rw [extensionSize, afterVec, lenAt] at h
  obtain ⟨tag, htag⟩ := exists_u16 (b := b) (by omega)
  obtain ⟨d, rest, hd⟩ := exists_vec (n := 2) (b := b.drop 2) (by
    rw [afterVec, lenAt, List.drop_zero, List.length_drop]
    omega)
  exact ⟨⟨tag, d⟩, rest, by rw [Tagged.encode, List.append_assoc, ← hd, ← htag]⟩

theorem pieces_extensions : Pieces Tagged.encode extensionSize fun _ => true where
  ne_nil := encode_ne_nil
  size_eq := extensionSize_encode
  good_eq _ _ := rfl
  exists_eq _ h _ := exists_extension h

theorem extensionsEnd_iff (d : Opaque 2) : extensionsEnd d.1 = true ↔ ∃ l : Extensions, l.bytes = d := by
  rw [extensionsEnd, pieces_extensions.covers_iff _ (Nat.lt_succ_self _)]
  refine ⟨fun h => ?_, fun h => ?_⟩
  · obtain ⟨l, hl⟩ := h
    have hfits : (encodeAll l).length < 256 ^ 2 := by
      rw [encodeAll, ← hl]
      exact d.2
    exact ⟨⟨l, hfits⟩, Subtype.ext hl.symm⟩
  · obtain ⟨l, rfl⟩ := h
    exact ⟨l.1, rfl⟩

/-- A block of extensions ends the input, and its extensions end the block. -/
def BlockEnds (pos : Nat) (b : Bytes) : Prop := afterVec 2 b pos = b.length ∧ extensionsEnd (b.drop (pos + 2)) = true

theorem drop_vec {n : Nat} (pre : Bytes) (d : Opaque n) (post : Bytes) :
    (pre ++ (vec n d.1 ++ post)).drop (pre.length + n) = d.1 ++ post := by
  rw [← List.drop_drop, List.drop_left, vec, List.append_assoc, List.drop_left' (length_beBytes _ _)]

theorem blockEnds_iff (pre : Bytes) (d : Opaque 2) (post : Bytes) :
    BlockEnds pre.length (pre ++ (vec 2 d.1 ++ post)) ↔ post = [] ∧ ∃ l : Extensions, l.bytes = d := by
  rw [BlockEnds, afterVec_eq_length_iff, drop_vec, ← extensionsEnd_iff]
  exact and_congr_right fun hpost => by rw [hpost, List.append_nil]

/-- The data of the first extension of a type, by the length fields. -/
def firstData (t : Nat) : Nat → Bytes → Bytes
  | 0, _ => []
  | fuel + 1, b =>
    if b = [] then []
    else if lenAt 2 0 b = t then (b.drop 4).take (lenAt 2 2 b)
    else firstData t fuel (b.drop (extensionSize b))

theorem firstData_encodeAll (t : BitVec 16) : ∀ (fuel : Nat) {l : List Tagged}, l.length < fuel →
    firstData t.toNat fuel (encodeAll l) = (first t l).getD []
  | 0, _, hf => absurd hf (Nat.not_lt_zero _)
  | fuel + 1, [], _ => by
    rw [firstData]
    rfl
  | fuel + 1, e :: l, hf => by
    have htag : lenAt 2 0 (e.encode ++ encodeAll l) = e.tag.toNat := by
      rw [Tagged.encode, List.append_assoc]
      exact lenAt_append e.tag.isLt [] _
    have hlen : lenAt 2 2 (e.encode ++ encodeAll l) = e.data.1.length := by
      rw [Tagged.encode, List.append_assoc]
      exact lenAt_vec (beBytes 2 e.tag.toNat) e.data _
    have hdata : ((e.encode ++ encodeAll l).drop 4).take e.data.1.length = e.data.1 := by
      rw [Tagged.encode, List.append_assoc]
      have := drop_vec (beBytes 2 e.tag.toNat) e.data (encodeAll l)
      rw [length_beBytes] at this
      rw [this, List.take_left]
    rw [encodeAll_cons, firstData, if_neg (by simp [encode_ne_nil]), htag, hlen, hdata, extensionSize_encode,
      List.drop_left, first_cons]
    simp only [BitVec.toNat_inj]
    split
    · rfl
    · exact firstData_encodeAll t fuel (by simpa using hf)

/-- The data of the first key_share of the block at `pos`. -/
def keyShareData (pos : Nat) (b : Bytes) : Bytes := firstData 51 (b.length + 1) (b.drop (pos + 2))

theorem keyShareData_eq (pre : Bytes) (l : Extensions) :
    keyShareData pre.length (pre ++ (vec 2 l.bytes.1 ++ [])) = (first 51 l.1).getD [] := by
  rw [keyShareData, drop_vec, List.append_nil l.bytes.1]
  refine firstData_encodeAll 51 _ ?_
  have hle : l.1.length ≤ l.bytes.1.length := length_le_encodeAll l.1
  rw [List.append_nil, List.length_append, length_vec]
  omega

/-! ## The bodies -/

/-- The handshake messages whose bodies have a parser. -/
inductive Body
  | clientHello
  | serverHello
  | encryptedExtensions
  | certificate
  | certificateVerify

/-- The parser of the body accepts its input. -/
def accepts : Body → Bytes → Bool
  | .clientHello, b => (clientHelloParse b).isOk
  | .serverHello, b => (serverHelloParse b).isOk
  | .encryptedExtensions, b => (encryptedExtensionsParse b).isOk
  | .certificate, b => (certificateParse b).isOk
  | .certificateVerify, b => (certificateVerifyParse b).isOk

/-- The input is the encoding of a message. -/
def IsMessage : Body → Bytes → Prop
  | .clientHello, b => ∃ m : Spec.Grammar.ClientHello, m.encode = b ∧ m.Whole
  | .serverHello, b => ∃ m : Spec.Grammar.ServerHello, m.encode = b ∧ m.Whole
  | .encryptedExtensions, b => ∃ l : Extensions, Spec.Grammar.encryptedExtensions l = b
  | .certificate, b => ∃ m : Spec.Grammar.Certificate, m.encode = b
  | .certificateVerify, b => ∃ m : Spec.Grammar.CertificateVerify, m.encode = b

/-- Where the extensions of a ClientHello are, by the length fields before them. -/
def clientExtensionsAt (b : Bytes) : Nat := afterVec 1 b (afterVec 2 b (afterVec 1 b (afterVec 1 b 34)))

/-- Where the extensions of a ServerHello are. -/
def serverExtensionsAt (b : Bytes) : Nat := afterVec 1 b 34 + 3

/-- The size of the certificate entry at the front. -/
def entrySize (b : Bytes) : Nat := afterVec 2 b (afterVec 3 b 0)

/-- The extensions of the certificate entry at the front end where it ends. -/
def entryGood (b : Bytes) : Bool := extensionsEnd ((b.drop (afterVec 3 b 0 + 2)).take (lenAt 2 (afterVec 3 b 0) b))

/-- The length fields of certificate entries lead to the end. -/
def entriesEnd (b : Bytes) : Bool := covers entrySize entryGood (b.length + 1) b

/-- The length fields of the input lead to its end. In the hellos, those of the key_share also lead to the end of this
extension. -/
def Ends : Body → Bytes → Prop
  | .clientHello, b => BlockEnds (clientExtensionsAt b) b ∧
      afterVec 2 (keyShareData (clientExtensionsAt b) b) 0 = (keyShareData (clientExtensionsAt b) b).length
  | .serverHello, b => BlockEnds (serverExtensionsAt b) b ∧
      afterVec 2 (keyShareData (serverExtensionsAt b) b) 2 = (keyShareData (serverExtensionsAt b) b).length
  | .encryptedExtensions, b => extensionsEnd (b.drop 2) = true
  | .certificate, b => afterVec 3 b (afterVec 1 b 0) = b.length ∧ entriesEnd (b.drop (afterVec 1 b 0 + 3)) = true
  | .certificateVerify, _ => True

instance (pos : Nat) (b : Bytes) : Decidable (BlockEnds pos b) := inferInstanceAs (Decidable (_ ∧ _))

instance (body : Body) (b : Bytes) : Decidable (Ends body b) :=
  match body with
  | .clientHello | .serverHello | .certificate => inferInstanceAs (Decidable (_ ∧ _))
  | .encryptedExtensions => inferInstanceAs (Decidable (_ = true))
  | .certificateVerify => inferInstanceAs (Decidable True)

theorem length_left_lt {buf x : Bytes} {n : Nat} (h : (buf ++ x).length < n) : buf.length < n := by
  rw [List.length_append] at h
  omega

/-! ## ClientHello -/

theorem clientExtensionsAt_eq (m : ClientFrame) (tail : Bytes) :
    ∃ pre : Bytes, m.encode ++ tail = pre ++ (vec 2 m.extensions.1 ++ tail) ∧
      clientExtensionsAt (m.encode ++ tail) = pre.length := by
  have h34 : 34 = (beBytes 2 m.legacyVersion.toNat ++ m.random.1).length := by
    rw [List.length_append, length_beBytes, m.random.2]
  have hb : m.encode ++ tail = beBytes 2 m.legacyVersion.toNat ++ m.random.1 ++ (vec 1 m.sessionId.1 ++ (vec 1 m.cookie.1 ++
      (vec 2 m.cipherSuites.1 ++ (vec 1 m.compressionMethods.1 ++ (vec 2 m.extensions.1 ++ tail))))) := by
    simp only [ClientFrame.encode, List.append_assoc]
  generalize m.encode ++ tail = b at hb ⊢
  have h₁ := afterVec_eq _ _ _ hb h34
  rw [← List.append_assoc] at hb
  have h₂ := afterVec_eq _ _ _ hb rfl
  rw [← List.append_assoc] at hb
  have h₃ := afterVec_eq _ _ _ hb rfl
  rw [← List.append_assoc] at hb
  have h₄ := afterVec_eq _ _ _ hb rfl
  rw [← List.append_assoc] at hb
  exact ⟨_, hb, by rw [clientExtensionsAt, h₁, h₂, h₃, h₄]⟩

/-- Fields whose lists are lists are those of a message. -/
theorem exists_clientHello_frame {m : ClientFrame} {suites : List (BitVec 16)} {l : Extensions}
    (hs : m.cipherSuites.1 = u16s suites) (hl : l.bytes = m.extensions) :
    ∃ m' : Spec.Grammar.ClientHello, m'.frame = m := by
  obtain ⟨version, random, sessionId, cookie, cipherSuites, compression, extensions⟩ := m
  refine ⟨⟨version, random, sessionId, cookie, ⟨suites, hs ▸ cipherSuites.2⟩, compression, l⟩, ?_⟩
  rw [Spec.Grammar.ClientHello.frame, ClientFrame.mk.injEq]
  exact ⟨rfl, rfl, rfl, rfl, Subtype.ext hs.symm, rfl, hl⟩

theorem clientHello_iff {buf : Bytes} {hello : HelloParams} (hlt : buf.length < 2 ^ 64)
    (hp : clientHelloParse buf = .ok hello) : IsMessage .clientHello buf ↔ Ends .clientHello buf := by
  refine ⟨fun h => ?_, fun h => ?_⟩
  · obtain ⟨m, rfl, -, shares, hfits, hshares⟩ := h
    obtain ⟨pre, hb, hpos⟩ := clientExtensionsAt_eq m.frame []
    rw [List.append_nil] at hb hpos
    rw [Spec.Grammar.ClientHello.encode, Ends, hpos, hb]
    refine ⟨(blockEnds_iff pre _ []).mpr ⟨rfl, m.extensions, rfl⟩, ?_⟩
    rw [show m.frame.extensions = m.extensions.bytes from rfl, keyShareData_eq, hshares, Option.getD_some,
      ← List.append_nil (vec 2 _)]
    exact (afterVec_eq_length_iff [] ⟨encodeAll shares, hfits⟩ []).mpr rfl
  · obtain ⟨m, tail, rfl, suites, hsuites⟩ := exists_clientFrame hlt hp
    obtain ⟨pre, hb, hpos⟩ := clientExtensionsAt_eq m tail
    rw [Ends, hpos, hb] at h
    obtain ⟨hblock, hks⟩ := h
    obtain ⟨rfl, l, hl⟩ := (blockEnds_iff pre _ tail).mp hblock
    obtain ⟨m, rfl⟩ := exists_clientHello_frame hsuites hl
    rw [List.append_nil] at hp ⊢
    obtain ⟨-, -, ⟨_, hversion, versions, hfits', rfl, -⟩, _, hdata, shares, rest, hfits, rfl, -⟩ :=
      (clientHelloParse_iff m hello).mp hp
    rw [show m.frame.extensions = m.extensions.bytes from rfl, keyShareData_eq, hdata, Option.getD_some] at hks
    obtain rfl := (afterVec_eq_length_iff [] ⟨encodeAll shares, hfits⟩ rest).mp hks
    rw [List.append_nil] at hdata
    exact ⟨m, rfl, ⟨versions, hfits', hversion⟩, shares, hfits, hdata⟩

/-- `nd_client_hello_parse` does not look behind what it accepts. -/
theorem clientHelloParse_append {buf x : Bytes} {hello : HelloParams} (hlt : (buf ++ x).length < 2 ^ 64)
    (hp : clientHelloParse buf = .ok hello) : clientHelloParse (buf ++ x) = .ok hello := by
  have hbuf := length_left_lt hlt
  obtain ⟨m, tail, rfl, -⟩ := exists_clientFrame hbuf hp
  rw [clientHelloParse_frame m hbuf] at hp
  rw [List.append_assoc] at hlt ⊢
  rw [clientHelloParse_frame m hlt, hp]

/-! ## ServerHello -/

theorem serverExtensionsAt_eq (m : ServerFrame) (tail : Bytes) :
    ∃ pre : Bytes, m.encode ++ tail = pre ++ (vec 2 m.extensions.1 ++ tail) ∧
      serverExtensionsAt (m.encode ++ tail) = pre.length := by
  have h34 : 34 = (beBytes 2 m.legacyVersion.toNat ++ m.random.1).length := by
    rw [List.length_append, length_beBytes, m.random.2]
  have hb : m.encode ++ tail = beBytes 2 m.legacyVersion.toNat ++ m.random.1 ++ (vec 1 m.sessionIdEcho.1 ++
      (beBytes 2 m.cipherSuite.toNat ++ (beBytes 1 m.compressionMethod.toNat ++ (vec 2 m.extensions.1 ++ tail)))) := by
    simp only [ServerFrame.encode, List.append_assoc]
  generalize m.encode ++ tail = b at hb ⊢
  have h₁ := afterVec_eq _ _ _ hb h34
  rw [← List.append_assoc, ← List.append_assoc, ← List.append_assoc] at hb
  refine ⟨_, hb, ?_⟩
  rw [serverExtensionsAt, h₁]
  generalize beBytes 2 m.legacyVersion.toNat ++ m.random.1 ++ vec 1 m.sessionIdEcho.1 = front
  rw [List.length_append, List.length_append, length_beBytes, length_beBytes]

theorem serverHello_iff {buf : Bytes} {hello : ServerHello} (hlt : buf.length < 2 ^ 64)
    (hp : serverHelloParse buf = .ok hello) : IsMessage .serverHello buf ↔ Ends .serverHello buf := by
  -- the share ends the key_share if its length field leads to the end
  have hshare (entry : Tagged) (rest : Bytes) :
      afterVec 2 (entry.encode ++ rest) 2 = (entry.encode ++ rest).length ↔ rest = [] := by
    rw [Tagged.encode, List.append_assoc]
    exact afterVec_eq_length_iff (beBytes 2 entry.tag.toNat) entry.data rest
  refine ⟨fun h => ?_, fun h => ?_⟩
  · obtain ⟨m, rfl, -, entry, hentry⟩ := h
    obtain ⟨pre, hb, hpos⟩ := serverExtensionsAt_eq m.frame []
    rw [List.append_nil] at hb hpos
    rw [Spec.Grammar.ServerHello.encode, Ends, hpos, hb]
    refine ⟨(blockEnds_iff pre _ []).mpr ⟨rfl, m.extensions, rfl⟩, ?_⟩
    rw [show m.frame.extensions = m.extensions.bytes from rfl, keyShareData_eq, hentry, Option.getD_some,
      ← List.append_nil entry.encode]
    exact (hshare entry []).mpr rfl
  · obtain ⟨m, tail, rfl⟩ := exists_serverFrame hlt hp
    obtain ⟨pre, hb, hpos⟩ := serverExtensionsAt_eq m tail
    rw [Ends, hpos, hb] at h
    obtain ⟨hblock, hks⟩ := h
    obtain ⟨version, random, sessionId, suite, compression, extensions⟩ := m
    obtain ⟨rfl, l, rfl⟩ := (blockEnds_iff pre _ tail).mp hblock
    rw [List.append_nil] at hp ⊢
    obtain ⟨-, -, -, hversion, _, hdata, entry, rest, rfl, -⟩ :=
      (serverHelloParse_iff ⟨version, random, sessionId, suite, compression, l⟩ hello).mp hp
    rw [keyShareData_eq, hdata, Option.getD_some] at hks
    obtain rfl := (hshare entry rest).mp hks
    rw [List.append_nil] at hdata
    exact ⟨⟨version, random, sessionId, suite, compression, l⟩, rfl, ⟨0xfefc, hversion⟩, entry, hdata⟩

/-- `nd_server_hello_parse` does not look behind what it accepts. -/
theorem serverHelloParse_append {buf x : Bytes} {hello : ServerHello} (hlt : (buf ++ x).length < 2 ^ 64)
    (hp : serverHelloParse buf = .ok hello) : serverHelloParse (buf ++ x) = .ok hello := by
  have hbuf := length_left_lt hlt
  obtain ⟨m, tail, rfl⟩ := exists_serverFrame hbuf hp
  rw [serverHelloParse_frame m hbuf] at hp
  rw [List.append_assoc] at hlt ⊢
  rw [serverHelloParse_frame m hlt, hp]

/-! ## Certificate -/

theorem entrySize_encode (e : EntryFrame) (rest : Bytes) : entrySize (e.encode ++ rest) = e.encode.length := by
  rw [entrySize, EntryFrame.encode, List.append_assoc, afterVec_front, afterVec_eq _ _ _ rfl rfl]

theorem entryGood_encode (e : EntryFrame) (rest : Bytes) :
    entryGood (e.encode ++ rest) = extensionsEnd e.extensions.1 := by
  rw [entryGood, EntryFrame.encode, List.append_assoc, afterVec_front, lenAt_vec, drop_vec, List.take_left]

theorem exists_entry {b : Bytes} (h : entrySize b ≤ b.length) :
    ∃ (e : EntryFrame) (rest : Bytes), b = e.encode ++ rest := by
  obtain ⟨cert, b', rfl⟩ := exists_vec (n := 3) (b := b) (by
    rw [entrySize, afterVec] at h
    omega)
  rw [entrySize, afterVec_front, afterVec, lenAt, List.drop_left, List.length_append] at h
  obtain ⟨exts, rest, rfl⟩ := exists_vec (n := 2) (b := b') (by
    rw [afterVec, lenAt, List.drop_zero]
    omega)
  exact ⟨⟨cert, exts⟩, rest, by rw [EntryFrame.encode, List.append_assoc]⟩

theorem pieces_entries : Pieces CertificateEntry.encode entrySize entryGood where
  ne_nil e := by simp [CertificateEntry.encode, EntryFrame.encode, vec, beBytes]
  size_eq e rest := entrySize_encode _ rest
  good_eq e rest := (entryGood_encode _ rest).trans ((extensionsEnd_iff _).mpr ⟨e.extensions, rfl⟩)
  exists_eq b hsize hgood := by
    obtain ⟨⟨cert, exts⟩, rest, rfl⟩ := exists_entry hsize
    rw [entryGood_encode, extensionsEnd_iff] at hgood
    obtain ⟨l, rfl⟩ := hgood
    exact ⟨⟨cert, l⟩, rest, rfl⟩

theorem certificateEnds_iff (m : CertificateFrame) (tail : Bytes) : Ends .certificate (m.encode ++ tail) ↔
    tail = [] ∧ ∃ l : List CertificateEntry, m.certificateList.1 = l.flatMap CertificateEntry.encode := by
  rw [Ends, CertificateFrame.encode, List.append_assoc, afterVec_front, afterVec_eq_length_iff, drop_vec, entriesEnd,
    pieces_entries.covers_iff _ (Nat.lt_succ_self _)]
  exact and_congr_right fun htail => by rw [htail, List.append_nil]

theorem certificate_iff {buf : Bytes} {certs : List Span} (hlt : buf.length < 2 ^ 64)
    (hp : certificateParse buf = .ok certs) : IsMessage .certificate buf ↔ Ends .certificate buf := by
  refine ⟨fun h => ?_, fun h => ?_⟩
  · obtain ⟨m, rfl⟩ := h
    rw [Spec.Grammar.Certificate.encode, ← List.append_nil (CertificateFrame.encode _)]
    exact (certificateEnds_iff _ []).mpr ⟨rfl, m.entries.1, rfl⟩
  · obtain ⟨⟨context, list, hlist⟩, tail, rfl⟩ := exists_certificateFrame hlt hp
    obtain ⟨rfl, l, hl⟩ := (certificateEnds_iff _ tail).mp h
    subst hl
    exact ⟨⟨context, ⟨l, hlist⟩⟩, (List.append_nil _).symm⟩

/-- `nd_certificate_parse` does not look behind what it accepts. -/
theorem certificateParse_append {buf x : Bytes} {certs : List Span} (hlt : (buf ++ x).length < 2 ^ 64)
    (hp : certificateParse buf = .ok certs) : certificateParse (buf ++ x) = .ok certs := by
  have hbuf := length_left_lt hlt
  obtain ⟨m, tail, rfl⟩ := exists_certificateFrame hbuf hp
  rw [certificateParse_frame m hbuf] at hp
  rw [List.append_assoc] at hlt ⊢
  rw [certificateParse_frame m hlt, hp]

/-! ## The parsers that check the end -/

/-- A vector with something behind it is not a vector. -/
theorem vec_append_ne {n : Nat} (pre pre' : Bytes) (d d' : Opaque n) {x : Bytes} (hx : x ≠ [])
    (hpre : pre.length = pre'.length) : pre ++ (vec n d.1 ++ x) ≠ pre' ++ vec n d'.1 := by
  intro h
  rw [← List.append_nil (vec n d'.1)] at h
  refine hx ((afterVec_eq_length_iff pre d x).mp ?_)
  rw [h, hpre]
  exact (afterVec_eq_length_iff pre' d' []).mpr rfl

theorem encryptedExtensionsParse_append {buf x : Bytes} {u : Unit} (hx : x ≠ []) (hlt : (buf ++ x).length < 2 ^ 64)
    (hp : encryptedExtensionsParse buf = .ok u) (v : Unit) : encryptedExtensionsParse (buf ++ x) ≠ .ok v := by
  intro hp'
  obtain ⟨block, rfl⟩ := exists_encryptedExtensions (length_left_lt hlt) hp
  obtain ⟨block', h⟩ := exists_encryptedExtensions hlt hp'
  exact vec_append_ne [] [] block block' hx rfl h

theorem certificateVerifyParse_append {buf x : Bytes} {msg : CertificateVerifyMsg} (hx : x ≠ [])
    (hlt : (buf ++ x).length < 2 ^ 64) (hp : certificateVerifyParse buf = .ok msg) (msg' : CertificateVerifyMsg) :
    certificateVerifyParse (buf ++ x) ≠ .ok msg' := by
  intro hp'
  obtain ⟨m, rfl⟩ := exists_certificateVerify (length_left_lt hlt) hp
  obtain ⟨m', h⟩ := exists_certificateVerify hlt hp'
  rw [Spec.Grammar.CertificateVerify.encode, List.append_assoc] at h
  refine vec_append_ne _ _ m.signature m'.signature hx ?_ h
  rw [length_beBytes, length_beBytes]

/-! ## All bodies -/

theorem isOk_iff {α : Type} {x : Result α} : x.isOk = true ↔ ∃ a, x = .ok a := by
  cases x with
  | error e => exact ⟨nofun, nofun⟩
  | ok a => exact ⟨fun _ => ⟨a, rfl⟩, fun _ => rfl⟩

theorem isOk_eq_false {α : Type} {x : Result α} (h : ∀ a, x ≠ .ok a) : x.isOk = false := by
  cases x with
  | error e => rfl
  | ok a => exact absurd rfl (h a)

/-- What is accepted is a message if and only if the length fields lead to the end. -/
theorem isMessage_iff_ends {body : Body} {buf : Bytes} (hlt : buf.length < 2 ^ 64) (h : accepts body buf = true) :
    IsMessage body buf ↔ Ends body buf := by
  cases body with
  | clientHello =>
    obtain ⟨hello, hp⟩ := isOk_iff.mp h
    exact clientHello_iff hlt hp
  | serverHello =>
    obtain ⟨hello, hp⟩ := isOk_iff.mp h
    exact serverHello_iff hlt hp
  | encryptedExtensions =>
    obtain ⟨_, hp⟩ := isOk_iff.mp h
    obtain ⟨block, rfl⟩ := exists_encryptedExtensions hlt hp
    have hdrop : (vec 2 block.1).drop 2 = block.1 := List.drop_left' (length_beBytes _ _)
    rw [Ends, hdrop, extensionsEnd_iff]
    refine ⟨fun hm => ?_, fun hm => ?_⟩
    · obtain ⟨l, hl⟩ := hm
      refine ⟨l, Subtype.ext ?_⟩
      rw [← hdrop, ← hl]
      exact (List.drop_left' (length_beBytes _ _)).symm
    · obtain ⟨l, rfl⟩ := hm
      exact ⟨l, rfl⟩
  | certificate =>
    obtain ⟨certs, hp⟩ := isOk_iff.mp h
    exact certificate_iff hlt hp
  | certificateVerify =>
    obtain ⟨msg, hp⟩ := isOk_iff.mp h
    obtain ⟨m, rfl⟩ := exists_certificateVerify hlt hp
    exact ⟨fun _ => trivial, fun _ => ⟨m, rfl⟩⟩

/-- The parsers that check that they are at the end of their input. -/
def Body.checksEnd : Body → Bool
  | .encryptedExtensions | .certificateVerify => true
  | .clientHello | .serverHello | .certificate => false

/-- Bytes behind what is accepted are rejected by the parsers that check the end, and ignored by the others. -/
theorem accepts_append {body : Body} {buf x : Bytes} (h : accepts body buf = true) (hx : x ≠ [])
    (hlt : (buf ++ x).length < 2 ^ 64) : accepts body (buf ++ x) = !body.checksEnd := by
  cases body with
  | clientHello =>
    obtain ⟨hello, hp⟩ := isOk_iff.mp h
    exact isOk_iff.mpr ⟨hello, clientHelloParse_append hlt hp⟩
  | serverHello =>
    obtain ⟨hello, hp⟩ := isOk_iff.mp h
    exact isOk_iff.mpr ⟨hello, serverHelloParse_append hlt hp⟩
  | certificate =>
    obtain ⟨certs, hp⟩ := isOk_iff.mp h
    exact isOk_iff.mpr ⟨certs, certificateParse_append hlt hp⟩
  | encryptedExtensions =>
    obtain ⟨_, hp⟩ := isOk_iff.mp h
    exact isOk_eq_false (encryptedExtensionsParse_append hx hlt hp)
  | certificateVerify =>
    obtain ⟨msg, hp⟩ := isOk_iff.mp h
    exact isOk_eq_false (certificateVerifyParse_append hx hlt hp)

/-- An accepted body is a whole message if and only if the length fields lead to its end, and only two parsers reject
what follows one. -/
theorem accepted_whole_iff (body : Body) {buf : Bytes} (hlt : buf.length < 2 ^ 64) (h : accepts body buf = true) :
    (IsMessage body buf ↔ Ends body buf) ∧
      ∀ x ≠ [], (buf ++ x).length < 2 ^ 64 → (accepts body (buf ++ x) = false ↔ body.checksEnd = true) := by
  refine ⟨isMessage_iff_ends hlt h, fun x hx hlt' => ?_⟩
  rw [accepts_append h hx hlt', Bool.not_eq_false']

/-- A Certificate message with one empty certificate. -/
theorem accepted_whole_iff_certificate : accepts .certificate [0, 0, 0, 5, 0, 0, 0, 0, 0] = true ∧
    IsMessage .certificate [0, 0, 0, 5, 0, 0, 0, 0, 0] :=
  ⟨by decide, (accepted_whole_iff .certificate (by decide) (by decide)).1.mpr (by decide)⟩

/-- Inputs that are accepted and are not messages: a Certificate message with a byte behind it, a block of
EncryptedExtensions that is no list of extensions, and what the two sides send, with a byte behind it. -/
theorem accepted_not_whole :
    (accepts .certificate [0, 0, 0, 5, 0, 0, 0, 0, 0, 0xff] = true ∧
      ¬ IsMessage .certificate [0, 0, 0, 5, 0, 0, 0, 0, 0, 0xff]) ∧
    (accepts .encryptedExtensions [0, 1, 0xff] = true ∧ ¬ IsMessage .encryptedExtensions [0, 1, 0xff]) ∧
    (accepts .clientHello (Spec.Wire.clientHello (zeros 32).1 (zeros 32).1 ++ [0xff]) = true ∧
      ¬ IsMessage .clientHello (Spec.Wire.clientHello (zeros 32).1 (zeros 32).1 ++ [0xff])) ∧
    (accepts .serverHello (Spec.Wire.serverHello (zeros 32).1 (zeros 32).1 ++ [0xff]) = true ∧
      ¬ IsMessage .serverHello (Spec.Wire.serverHello (zeros 32).1 (zeros 32).1 ++ [0xff])) := by
  have hnot {body : Body} {buf : Bytes} (hlt : buf.length < 2 ^ 64) (h : accepts body buf = true)
      (hends : ¬ Ends body buf) : accepts body buf = true ∧ ¬ IsMessage body buf :=
    ⟨h, fun hm => hends ((isMessage_iff_ends hlt h).mp hm)⟩
  exact ⟨hnot (by decide) (by decide) (by decide), hnot (by decide) (by decide) (by decide),
    hnot (by decide) (by decide +kernel) (by decide +kernel), hnot (by decide) (by decide +kernel) (by decide +kernel)⟩

end ND.Proof.Bodies
