import NanoDtls.Impl.Wire

/-!
# ClientHello and ServerHello (`src/handshake/hello.c`)

Each turn of a parsing loop reads at least two bytes, so a loop that may take
one turn more than there are bytes ends by itself; running out of turns is
`Status.ub`.
-/

namespace ND.Impl.Hello

/-- `ND_CIPHER_SUITE_CHACHA20_POLY1305_SHA256`. -/
def cipherSuite : Nat := 0x1303

/-- `ND_NAMED_GROUP_X25519`. -/
def namedGroupX25519 : Nat := 0x001D

/-- `ND_DTLS_1_3_VERSION`. -/
def dtls13Version : Nat := 0xfefc

/-- `ND_DTLS_1_2_LEGACY_VERSION`. -/
def dtls12LegacyVersion : Nat := 0xfefd

/-- The extension types that are read. -/
def extSupportedVersions : Nat := 43
def extKeyShare : Nat := 51

/-- `nd_client_hello_params`, `nd_server_hello_params` and `nd_client_hello`. -/
structure HelloParams where
  random : BytesN 32
  x25519PublicKey : BytesN 32
deriving DecidableEq

/-- `nd_server_hello`. -/
structure ServerHello where
  random : BytesN 32
  cipherSuite : Nat
  selectedVersion : Nat
  keyShare : BytesN 32
deriving DecidableEq

open Writer in
/-- The extensions of a ClientHello. -/
def clientExtensions (params : HelloParams) (w : Writer) : Writer :=
  w |> u16 extSupportedVersions |> withLen 2 (withLen 1 (u16 dtls13Version))
    |> u16 10 |> withLen 2 (withLen 2 (u16 namedGroupX25519))
    |> u16 extKeyShare |> withLen 2 (withLen 2 fun w =>
      w |> u16 namedGroupX25519 |> withLen 2 (bytes params.x25519PublicKey.1))
    |> u16 13 |> withLen 2 (withLen 2 fun w => w |> u16 0x0403 |> u16 0x0804 |> u16 0x0807)

open Writer in
/-- `nd_client_hello_serialize`. -/
def clientHelloSerialize (params : HelloParams) (outBufCap : Nat) : Result Bytes :=
  Writer.init outBufCap |> u16 dtls12LegacyVersion |> bytes params.random.1
    |> withLen 1 id |> withLen 1 id
    |> withLen 2 (u16 cipherSuite)
    |> withLen 1 (u8 0x00)
    |> withLen 2 (clientExtensions params)
    |> finish

open Writer in
/-- The extensions of a ServerHello. -/
def serverExtensions (params : HelloParams) (w : Writer) : Writer :=
  w |> u16 extSupportedVersions |> withLen 2 (u16 dtls13Version)
    |> u16 extKeyShare |> withLen 2 fun w =>
      w |> u16 namedGroupX25519 |> withLen 2 (bytes params.x25519PublicKey.1)

open Writer in
/-- `nd_server_hello_serialize`. -/
def serverHelloSerialize (params : HelloParams) (outBufCap : Nat) : Result Bytes :=
  Writer.init outBufCap |> u16 dtls12LegacyVersion |> bytes params.random.1
    |> withLen 1 id
    |> u16 cipherSuite |> u8 0x00
    |> withLen 2 (serverExtensions params)
    |> finish

/-- The loop of `find_extension`. Its callers return `ND_ERR_UNSUPPORTED` if it returns 0. -/
def findExtensionLoop (wantType : Nat) : Nat → Reader → Result Span
  | 0, _ => .error .ub
  | fuel + 1, r =>
    if r.more then do
      let (extType, r) ← r.u16 .unsupported
      let (extLen, r) ← r.u16 .unsupported
      let (data, r) ← r.view .unsupported extLen
      if extType = wantType then .ok data else findExtensionLoop wantType fuel r
    else .error .unsupported

/-- `find_extension`. -/
def findExtension (extBlock : Span) (wantType : Nat) : Result Span :=
  findExtensionLoop wantType (extBlock.len + 1) (.init extBlock)

/-- A `KeyShareEntry`: the group and the key. -/
def readKeyShareEntry (r : Reader) : Result (Nat × Span × Reader) := do
  let (group, r) ← r.u16 .unsupported
  let (keyLen, r) ← r.u16 .unsupported
  let (key, r) ← r.view .unsupported keyLen
  return (group, key, r)

/-- `nd_server_hello_parse`. -/
def serverHelloParse (buf : Bytes) : Result ServerHello := do
  let r := Reader.init (.ofBytes buf)
  let (_, r) ← r.u16 .truncated
  let (random, r) ← r.bytes .truncated 32
  let random ← bytesN 32 random
  let (sessionIdEchoLen, r) ← r.u8 .truncated
  let r ← r.skip .truncated sessionIdEchoLen
  let (cipherSuite, r) ← r.u16 .truncated
  let (_, r) ← r.u8 .truncated
  let (extListLen, r) ← r.u16 .truncated
  let (extBlock, _) ← r.view .badLength extListLen
  let svData ← findExtension extBlock extSupportedVersions
  failIf (svData.len ≠ 2) .unsupported
  let selectedVersion ← beNat <$> readSlice svData.bytes 0 2
  failIf (selectedVersion ≠ dtls13Version) .unsupported
  let ksData ← findExtension extBlock extKeyShare
  let (group, key, _) ← readKeyShareEntry (.init ksData)
  failIf (group ≠ namedGroupX25519 ∨ key.len ≠ 32) .unsupported
  let keyShare ← bytesN 32 key.bytes
  return ⟨random, cipherSuite, selectedVersion, keyShare⟩

/-- The loop over the cipher suites of a ClientHello: whether ours is among them. -/
def suiteLoop : Nat → Bool → Reader → Result Bool
  | 0, _, _ => .error .ub
  | fuel + 1, found, r =>
    if r.more then do
      let (suite, r) ← r.u16 .badLength
      suiteLoop fuel (found || suite == cipherSuite) r
    else .ok found

/-- The loop over the versions of a ClientHello, `i` from 1 in steps of 2. -/
def versionLoop (svData : Bytes) : Nat → Bool → Nat → Result Bool
  | 0, _, _ => .error .ub
  | fuel + 1, found, i =>
    if i + 1 < svData.length then do
      let v ← beNat <$> readSlice svData i 2
      versionLoop svData fuel (found || v == dtls13Version) (i + 2)
    else .ok found

/-- The loop over the key shares of a ClientHello: the last X25519 key of 32 bytes. -/
def shareLoop : Nat → Option (BytesN 32) → Reader → Result (Option (BytesN 32))
  | 0, _, _ => .error .ub
  | fuel + 1, found, r =>
    if r.more then do
      let (group, key, r) ← readKeyShareEntry r
      let found ← (if group = namedGroupX25519 ∧ key.len = 32 then some <$> bytesN 32 key.bytes else .ok found)
      shareLoop fuel found r
    else .ok found

/-- The check of the supported_versions of a ClientHello. -/
def checkVersions (svData : Span) : Result Unit := do
  failIf (svData.len < 1) .unsupported
  let listLen ← readAt svData.bytes 0
  failIf (listLen.toNat + 1 ≠ svData.len ∨ listLen.toNat % 2 ≠ 0) .unsupported
  let found ← versionLoop svData.bytes (svData.len + 1) false 1
  failIf (found = false) .unsupported

/-- The key of the key_share of a ClientHello. -/
def clientKeyShare (ksData : Span) : Result (BytesN 32) := do
  let (listLen, ksr) ← (Reader.init ksData).u16 .unsupported
  let (listData, _) ← ksr.view .unsupported listLen
  match ← shareLoop (listData.len + 1) none (.init listData) with
  | none => throw .unsupported
  | some key => return key

/-- `nd_client_hello_parse`. -/
def clientHelloParse (buf : Bytes) : Result HelloParams := do
  let r := Reader.init (.ofBytes buf)
  let (_, r) ← r.u16 .truncated
  let (random, r) ← r.bytes .truncated 32
  let random ← bytesN 32 random
  let (sessionIdLen, r) ← r.u8 .truncated
  let r ← r.skip .truncated sessionIdLen
  let (cookieLen, r) ← r.u8 .truncated
  let r ← r.skip .truncated cookieLen
  let (csLen, r) ← r.u16 .truncated
  let (csData, r) ← r.view .badLength csLen
  let found ← suiteLoop (csData.len + 1) false (.init csData)
  failIf (found = false) .unsupported
  let (compLen, r) ← r.u8 .truncated
  let r ← r.skip .truncated compLen
  let (extListLen, r) ← r.u16 .truncated
  let (extBlock, _) ← r.view .badLength extListLen
  let svData ← findExtension extBlock extSupportedVersions
  checkVersions svData
  let ksData ← findExtension extBlock extKeyShare
  let key ← clientKeyShare ksData
  return ⟨random, key⟩

end ND.Impl.Hello
