import NanoDtls.Impl.Types

/-!
# SHA-256, HMAC and HKDF (`src/crypto/sha256.c`, `hmac_sha256.c`, `hkdf.c`)

The hash is a stream: `sha256Update` buffers up to a block and compresses the
blocks that fill, `sha256Final` pads. HMAC and HKDF are built on it; a label
of HKDF-Expand-Label is a C string, here its bytes.
-/

namespace ND.Impl.Sha256

abbrev Word := BitVec 32

/-- The round constants. -/
def K : List Word :=
  [0x428a2f98, 0x71374491, 0xb5c0fbcf, 0xe9b5dba5, 0x3956c25b, 0x59f111f1, 0x923f82a4, 0xab1c5ed5,
   0xd807aa98, 0x12835b01, 0x243185be, 0x550c7dc3, 0x72be5d74, 0x80deb1fe, 0x9bdc06a7, 0xc19bf174,
   0xe49b69c1, 0xefbe4786, 0x0fc19dc6, 0x240ca1cc, 0x2de92c6f, 0x4a7484aa, 0x5cb0a9dc, 0x76f988da,
   0x983e5152, 0xa831c66d, 0xb00327c8, 0xbf597fc7, 0xc6e00bf3, 0xd5a79147, 0x06ca6351, 0x14292967,
   0x27b70a85, 0x2e1b2138, 0x4d2c6dfc, 0x53380d13, 0x650a7354, 0x766a0abb, 0x81c2c92e, 0x92722c85,
   0xa2bfe8a1, 0xa81a664b, 0xc24b8b70, 0xc76c51a3, 0xd192e819, 0xd6990624, 0xf40e3585, 0x106aa070,
   0x19a4c116, 0x1e376c08, 0x2748774c, 0x34b0bcb5, 0x391c0cb3, 0x4ed8aa4a, 0x5b9cca4f, 0x682e6ff3,
   0x748f82ee, 0x78a5636f, 0x84c87814, 0x8cc70208, 0x90befffa, 0xa4506ceb, 0xbef9a3f7, 0xc67178f2]

/-- The eight words `h[0..8)`, and the working variables of a compression. -/
structure Hash where
  a : Word
  b : Word
  c : Word
  d : Word
  e : Word
  f : Word
  g : Word
  h : Word
deriving DecidableEq

def rotr32 (x : Word) (n : Nat) : Word := (x >>> n) ||| (x <<< (32 - n))

/-- `w[0..16)`: the block's big-endian words. -/
def blockWords (block : Bytes) : List Word :=
  (List.range 16).map fun i => BitVec.ofNat 32 (beNat ((block.drop (i * 4)).take 4))

/-- `w[i]` for `16 ≤ i`, from the words before it. -/
def scheduleWord (w : List Word) (i : Nat) : Word :=
  let w15 := w.getD (i - 15) 0
  let w2 := w.getD (i - 2) 0
  let s0 := rotr32 w15 7 ^^^ rotr32 w15 18 ^^^ (w15 >>> 3)
  let s1 := rotr32 w2 17 ^^^ rotr32 w2 19 ^^^ (w2 >>> 10)
  w.getD (i - 16) 0 + s0 + w.getD (i - 7) 0 + s1

/-- `w[0..64)`. -/
def schedule (block : Bytes) : List Word :=
  (List.range' 16 48).foldl (fun w i => w ++ [scheduleWord w i]) (blockWords block)

/-- One round, with `k = K[i]` and `w = w[i]`. -/
def round (v : Hash) (k w : Word) : Hash :=
  let S1 := rotr32 v.e 6 ^^^ rotr32 v.e 11 ^^^ rotr32 v.e 25
  let ch := (v.e &&& v.f) ^^^ (~~~v.e &&& v.g)
  let temp1 := v.h + S1 + ch + k + w
  let S0 := rotr32 v.a 2 ^^^ rotr32 v.a 13 ^^^ rotr32 v.a 22
  let maj := (v.a &&& v.b) ^^^ (v.a &&& v.c) ^^^ (v.b &&& v.c)
  let temp2 := S0 + maj
  { a := temp1 + temp2, b := v.a, c := v.b, d := v.c, e := v.d + temp1, f := v.e, g := v.f, h := v.g }

/-- `sha256_compress`. -/
def sha256Compress (h : Hash) (block : Bytes) : Hash :=
  let v := (K.zip (schedule block)).foldl (fun v kw => round v kw.1 kw.2) h
  { a := h.a + v.a, b := h.b + v.b, c := h.c + v.c, d := h.d + v.d
    e := h.e + v.e, f := h.f + v.f, g := h.g + v.g, h := h.h + v.h }

/-- `nd_sha256_ctx`; `buf` holds the `buf_len` bytes buffered. -/
structure Sha256Ctx where
  h : Hash
  totalLen : Nat
  buf : Bytes
deriving DecidableEq

/-- `nd_sha256_init`. -/
def sha256Init : Sha256Ctx where
  h := ⟨0x6a09e667, 0xbb67ae85, 0x3c6ef372, 0xa54ff53a, 0x510e527f, 0x9b05688c, 0x1f83d9ab, 0x5be0cd19⟩
  totalLen := 0
  buf := []

/-- The loop of `nd_sha256_update`: each turn takes at least one byte, so as many turns as there
are bytes are enough. -/
def updateLoop : Nat → Sha256Ctx → Bytes → Sha256Ctx
  | 0, ctx, _ => ctx
  | fuel + 1, ctx, data =>
    if data.length = 0 then ctx
    else
      let take := min (64 - ctx.buf.length) data.length
      let buf := ctx.buf ++ data.take take
      let ctx := if buf.length = 64 then { ctx with h := sha256Compress ctx.h buf, buf := [] }
        else { ctx with buf := buf }
      updateLoop fuel ctx (data.drop take)

/-- `nd_sha256_update`. -/
def sha256Update (ctx : Sha256Ctx) (data : Bytes) : Sha256Ctx :=
  updateLoop data.length { ctx with totalLen := (ctx.totalLen + data.length) % 2 ^ 64 } data

/-- The zero bytes of the padding: `while (buf_len != 56)`, at most 63 of them. -/
def padLoop : Nat → Sha256Ctx → Sha256Ctx
  | 0, ctx => ctx
  | fuel + 1, ctx => if ctx.buf.length = 56 then ctx else padLoop fuel (sha256Update ctx [0])

/-- The digest: the eight words, big-endian. -/
def digest (h : Hash) : Bytes :=
  [h.a, h.b, h.c, h.d, h.e, h.f, h.g, h.h].flatMap fun w => beBytes 4 w.toNat

theorem length_digest (h : Hash) : (digest h).length = 32 := by
  simp [digest]

/-- `nd_sha256_final`: the digest, and the context as it leaves it. -/
def sha256Final (ctx : Sha256Ctx) : BytesN 32 × Sha256Ctx :=
  let bitLen := ctx.totalLen * 8 % 2 ^ 64
  let ctx := sha256Update ctx [0x80]
  let ctx := padLoop 64 ctx
  let ctx := sha256Update ctx (beBytes 8 bitLen)
  (⟨digest ctx.h, length_digest _⟩, ctx)

/-- `nd_sha256`. -/
def sha256 (data : Bytes) : BytesN 32 := (sha256Final (sha256Update sha256Init data)).1

/-! ## HMAC -/

/-- The key, hashed if it is longer than a block, padded with zeros to one. -/
def keyBlock (key : Bytes) : Bytes :=
  if 64 < key.length then (sha256 key).1 ++ (zeros 32).1 else key ++ List.replicate (64 - key.length) 0

/-- `nd_hmac_sha256`. -/
def hmacSha256 (key data : Bytes) : BytesN 32 :=
  let ipad := (keyBlock key).map (· ^^^ 0x36)
  let opad := (keyBlock key).map (· ^^^ 0x5c)
  let inner := (sha256Final (sha256Update (sha256Update sha256Init ipad) data)).1
  (sha256Final (sha256Update (sha256Update sha256Init opad) inner.1)).1

/-! ## HKDF -/

/-- `nd_hkdf_extract`. -/
def hkdfExtract (salt ikm : Bytes) : Result (BytesN 32) :=
  let useSalt := if salt.length = 0 then (zeros 32).1 else salt
  .ok (hmacSha256 useSalt ikm)

/-- The loop of `nd_hkdf_expand`: `t` is `T(i-1)`, `need` the bytes still to generate. -/
def expandLoop (prk info : Bytes) : Nat → Bytes → Byte → Nat → Bytes
  | 0, _, _, _ => []
  | fuel + 1, t, counter, need =>
    if need = 0 then []
    else
      let t := (hmacSha256 prk (t ++ info ++ [counter])).1
      let take := min need 32
      t.take take ++ expandLoop prk info fuel t (counter + 1) (need - take)

theorem length_expandLoop (prk info : Bytes) :
    ∀ (fuel : Nat) (t : Bytes) (c : Byte) (need : Nat), need ≤ 32 * fuel →
      (expandLoop prk info fuel t c need).length = need
  | 0, _, _, need, h => by simp only [expandLoop, List.length_nil]; omega
  | fuel + 1, t, c, need, h => by
    unfold expandLoop
    split
    · rename_i h0; rw [h0]; rfl
    · simp only [List.length_append, List.length_take, BytesN.length_eq]
      rw [length_expandLoop prk info fuel _ _ _ (by omega)]
      omega

/-- `nd_hkdf_expand`; `ND_HKDF_INFO_MAX` is 200. -/
def hkdfExpand (prk info : Bytes) (outLen : Nat) : Result (BytesN outLen) :=
  if h : 255 * 32 < outLen then .error .badArg
  else if 200 < info.length then .error .badArg
  else .ok ⟨expandLoop prk info 255 [] 1 outLen, length_expandLoop _ _ _ _ _ _ (by omega)⟩

/-- The `HkdfLabel` that `nd_hkdf_expand_label` builds. -/
def hkdfLabel (outLen : Nat) (fullLabel context : Bytes) : Bytes :=
  beBytes 2 outLen ++ beBytes 1 fullLabel.length ++ fullLabel ++ beBytes 1 context.length ++ context

/-- `nd_hkdf_expand_label`; the label and the context are at most 64 bytes long. -/
def hkdfExpandLabel (secret labelPre label context : Bytes) (outLen : Nat) :
    Result (BytesN outLen) :=
  if 64 < labelPre.length + label.length ∨ 64 < context.length then .error .badArg
  else if 0xFFFF < outLen then .error .badArg
  else hkdfExpand secret (hkdfLabel outLen (labelPre ++ label) context) outLen

/-- `nd_derive_secret`. -/
def deriveSecret (secret labelPre label transcriptHash : Bytes) : Result (BytesN 32) :=
  hkdfExpandLabel secret labelPre label transcriptHash 32

end ND.Impl.Sha256
