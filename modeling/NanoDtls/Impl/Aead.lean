import NanoDtls.Framework.Slice
import NanoDtls.Impl.Types

/-!
# ChaCha20, Poly1305 and their AEAD (`src/crypto/chacha20.c`, `poly1305.c`, `aead_chacha20poly1305.c`)

ChaCha20 works on words of 32 bits that wrap around. Poly1305 has five limbs
of radix `2^26`; its `uint32_t` and `uint64_t` are natural numbers here,
reduced where the C stores or truncates them.
-/

namespace ND.Impl.ChaCha20

abbrev Word := BitVec 32

def rotl32 (x : Word) (n : Nat) : Word := (x <<< n) ||| (x >>> (32 - n))

/-- The macro `QR` on `x[a]`, `x[b]`, `x[c]`, `x[d]`. -/
def QR (x : List Word) (ia ib ic id : Nat) : List Word :=
  let a := x.getD ia 0; let b := x.getD ib 0; let c := x.getD ic 0; let d := x.getD id 0
  let a := a + b; let d := rotl32 (d ^^^ a) 16
  let c := c + d; let b := rotl32 (b ^^^ c) 12
  let a := a + b; let d := rotl32 (d ^^^ a) 8
  let c := c + d; let b := rotl32 (b ^^^ c) 7
  (((x.set ia a).set ib b).set ic c).set id d

/-- A column round and a diagonal round. -/
def doubleRound (x : List Word) : List Word :=
  let x := QR x 0 4 8 12
  let x := QR x 1 5 9 13
  let x := QR x 2 6 10 14
  let x := QR x 3 7 11 15
  let x := QR x 0 5 10 15
  let x := QR x 1 6 11 12
  let x := QR x 2 7 8 13
  QR x 3 4 9 14

/-- `load_le32(p + i * 4)`. -/
def loadLe32 (p : Bytes) (i : Nat) : Word := BitVec.ofNat 32 (leNat ((p.drop (i * 4)).take 4))

/-- The state `s` a block starts from. -/
def initState (key : BytesN 32) (nonce : BytesN 12) (counter : Word) : List Word :=
  [0x61707865, 0x3320646e, 0x79622d32, 0x6b206574] ++
    (List.range 8).map (loadLe32 key.1) ++ [counter] ++ (List.range 3).map (loadLe32 nonce.1)

/-- `nd_chacha20_block`. -/
def chacha20Block (key : BytesN 32) (nonce : BytesN 12) (counter : Word) : Bytes :=
  let s := initState key nonce counter
  let x := (List.range 10).foldl (fun x _ => doubleRound x) s
  (List.range 16).flatMap fun i => leBytes 4 (x.getD i 0 + s.getD i 0).toNat

theorem length_chacha20Block (key : BytesN 32) (nonce : BytesN 12) (counter : Word) :
    (chacha20Block key nonce counter).length = 64 := by
  simp [chacha20Block]

/-- The loop of `nd_chacha20_xor`: each turn takes at least one byte. -/
def xorLoop (key : BytesN 32) (nonce : BytesN 12) : Nat → Word → Bytes → Bytes
  | 0, _, _ => []
  | fuel + 1, counter, data =>
    if data.length = 0 then []
    else
      let block := chacha20Block key nonce counter
      List.zipWith (· ^^^ ·) (data.take 64) block ++ xorLoop key nonce fuel (counter + 1) (data.drop 64)

/-- `nd_chacha20_xor`. -/
def chacha20Xor (key : BytesN 32) (nonce : BytesN 12) (initialCounter : Word) (data : Bytes) : Bytes :=
  xorLoop key nonce data.length initialCounter data

end ND.Impl.ChaCha20

namespace ND.Impl.Poly1305

/-- Five limbs. -/
structure Limbs where
  l0 : Nat
  l1 : Nat
  l2 : Nat
  l3 : Nat
  l4 : Nat
deriving DecidableEq

/-- `nd_poly1305_ctx`: the limbs `r`, `s = 5 r[1..5)`, `h`, and the `buf_len` bytes buffered. -/
structure Poly1305Ctx where
  r : Limbs
  s : Fin 4 → Nat
  h : Limbs
  pad : Bytes
  buf : Bytes

/-- `clamp_r`. -/
def clampR (r : Bytes) : Bytes :=
  r.mapIdx fun i b =>
    if i = 3 ∨ i = 7 ∨ i = 11 ∨ i = 15 then b &&& 15
    else if i = 4 ∨ i = 8 ∨ i = 12 then b &&& 252
    else b

/-- `bytes_to_limbs`: limb `i` covers bits `26 i` to `26 i + 25`. -/
def bytesToLimbs (buf : Bytes) : Limbs :=
  let b := fun i => (buf.getD i 0).toNat
  { l0 := b 0 + b 1 * 2 ^ 8 + b 2 * 2 ^ 16 + b 3 % 4 * 2 ^ 24
    l1 := b 3 / 4 + b 4 * 2 ^ 6 + b 5 * 2 ^ 14 + b 6 % 16 * 2 ^ 22
    l2 := b 6 / 16 + b 7 * 2 ^ 4 + b 8 * 2 ^ 12 + b 9 % 64 * 2 ^ 20
    l3 := b 9 / 64 + b 10 * 2 ^ 2 + b 11 * 2 ^ 10 + b 12 * 2 ^ 18
    l4 := (b 13 + b 14 * 2 ^ 8 + b 15 * 2 ^ 16 + b 16 * 2 ^ 24) % 2 ^ 32 }

/-- `poly1305_mulmod`. -/
def poly1305Mulmod (h r : Limbs) (s : Fin 4 → Nat) : Limbs :=
  let d0 := (h.l0 * r.l0 + h.l1 * s 3 + h.l2 * s 2 + h.l3 * s 1 + h.l4 * s 0) % 2 ^ 64
  let d1 := (h.l0 * r.l1 + h.l1 * r.l0 + h.l2 * s 3 + h.l3 * s 2 + h.l4 * s 1) % 2 ^ 64
  let d2 := (h.l0 * r.l2 + h.l1 * r.l1 + h.l2 * r.l0 + h.l3 * s 3 + h.l4 * s 2) % 2 ^ 64
  let d3 := (h.l0 * r.l3 + h.l1 * r.l2 + h.l2 * r.l1 + h.l3 * r.l0 + h.l4 * s 3) % 2 ^ 64
  let d4 := (h.l0 * r.l4 + h.l1 * r.l3 + h.l2 * r.l2 + h.l3 * r.l1 + h.l4 * r.l0) % 2 ^ 64
  let h0 := d0 % 2 ^ 26
  let d1 := (d1 + d0 / 2 ^ 26) % 2 ^ 64
  let h1 := d1 % 2 ^ 26
  let d2 := (d2 + d1 / 2 ^ 26) % 2 ^ 64
  let h2 := d2 % 2 ^ 26
  let d3 := (d3 + d2 / 2 ^ 26) % 2 ^ 64
  let h3 := d3 % 2 ^ 26
  let d4 := (d4 + d3 / 2 ^ 26) % 2 ^ 64
  let h4 := d4 % 2 ^ 26
  let h0 := (h0 + d4 / 2 ^ 26 * 5 % 2 ^ 64 % 2 ^ 32) % 2 ^ 32
  { l0 := h0 % 2 ^ 26, l1 := (h1 + h0 / 2 ^ 26) % 2 ^ 32, l2 := h2, l3 := h3, l4 := h4 }

/-- Adding a block's limbs to `h`, then multiplying by `r`. -/
def absorb (ctx : Poly1305Ctx) (block17 : Bytes) : Poly1305Ctx :=
  let t := bytesToLimbs block17
  let h : Limbs :=
    { l0 := (ctx.h.l0 + t.l0) % 2 ^ 32, l1 := (ctx.h.l1 + t.l1) % 2 ^ 32
      l2 := (ctx.h.l2 + t.l2) % 2 ^ 32, l3 := (ctx.h.l3 + t.l3) % 2 ^ 32
      l4 := (ctx.h.l4 + t.l4) % 2 ^ 32 }
  { ctx with h := poly1305Mulmod h ctx.r ctx.s }

/-- `process_full_block`. -/
def processFullBlock (ctx : Poly1305Ctx) (block : Bytes) : Poly1305Ctx := absorb ctx (block ++ [1])

/-- `nd_poly1305_init`. -/
def poly1305Init (key : BytesN 32) : Poly1305Ctx :=
  let r := bytesToLimbs (clampR (key.1.take 16) ++ [0])
  { r := r
    s := fun i => match i with
      | 0 => r.l1 * 5 % 2 ^ 32
      | 1 => r.l2 * 5 % 2 ^ 32
      | 2 => r.l3 * 5 % 2 ^ 32
      | 3 => r.l4 * 5 % 2 ^ 32
    h := ⟨0, 0, 0, 0, 0⟩
    pad := key.1.drop 16
    buf := [] }

/-- `while (len >= 16)` of `nd_poly1305_update`, then what is left is buffered. -/
def blocksLoop : Nat → Poly1305Ctx → Bytes → Poly1305Ctx
  | 0, ctx, _ => ctx
  | fuel + 1, ctx, data =>
    if 16 ≤ data.length then blocksLoop fuel (processFullBlock ctx (data.take 16)) (data.drop 16)
    else if 0 < data.length then { ctx with buf := data }
    else ctx

/-- `nd_poly1305_update`. -/
def poly1305Update (ctx : Poly1305Ctx) (data : Bytes) : Poly1305Ctx :=
  if data.length = 0 then ctx
  else if ctx.buf.length = 0 then blocksLoop (data.length + 1) ctx data
  else
    let take := min (16 - ctx.buf.length) data.length
    let buf := ctx.buf ++ data.take take
    let ctx := if buf.length = 16 then { processFullBlock ctx buf with buf := [] } else { ctx with buf := buf }
    blocksLoop (data.length + 1) ctx (data.drop take)

/-- The last carry pass of `nd_poly1305_final`. -/
def carryPass (h : Limbs) : Limbs :=
  let h2 := (h.l2 + h.l1 / 2 ^ 26) % 2 ^ 32
  let h1 := h.l1 % 2 ^ 26
  let h3 := (h.l3 + h2 / 2 ^ 26) % 2 ^ 32
  let h2 := h2 % 2 ^ 26
  let h4 := (h.l4 + h3 / 2 ^ 26) % 2 ^ 32
  let h3 := h3 % 2 ^ 26
  let h0 := (h.l0 + h4 / 2 ^ 26 * 5) % 2 ^ 32
  let h4 := h4 % 2 ^ 26
  let h1 := (h1 + h0 / 2 ^ 26) % 2 ^ 32
  let h0 := h0 % 2 ^ 26
  let h2 := (h2 + h1 / 2 ^ 26) % 2 ^ 32
  let h1 := h1 % 2 ^ 26
  ⟨h0, h1, h2, h3, h4⟩

/-- One limb of the trial subtraction: the limb and the borrow out of it. -/
def subLimb (h p borrow : Int) : Int × Int :=
  let b := h - p - borrow
  if b < 0 then (b + 0x4000000, 1) else (b, 0)

/-- `h - p` if that is not negative, else `h`. -/
def subP (h : Limbs) : Limbs :=
  let (b0, borrow) := subLimb h.l0 0x3fffffb 0
  let (b1, borrow) := subLimb h.l1 0x3ffffff borrow
  let (b2, borrow) := subLimb h.l2 0x3ffffff borrow
  let (b3, borrow) := subLimb h.l3 0x3ffffff borrow
  let (b4, borrow) := subLimb h.l4 0x3ffffff borrow
  if borrow = 0 then ⟨b0.toNat, b1.toNat, b2.toNat, b3.toNat, b4.toNat⟩ else h

/-- `nd_poly1305_final`. -/
def poly1305Final (ctx : Poly1305Ctx) : BytesN 16 :=
  let ctx := if 0 < ctx.buf.length then
      absorb ctx (ctx.buf ++ [1] ++ List.replicate (16 - ctx.buf.length) 0)
    else ctx
  let r := subP (carryPass ctx.h)
  let w0 := (r.l0 ||| r.l1 * 2 ^ 26) % 2 ^ 32
  let w1 := (r.l1 / 2 ^ 6 ||| r.l2 * 2 ^ 20) % 2 ^ 32
  let w2 := (r.l2 / 2 ^ 12 ||| r.l3 * 2 ^ 14) % 2 ^ 32
  let w3 := (r.l3 / 2 ^ 18 ||| r.l4 * 2 ^ 8) % 2 ^ 32
  let f0 := w0 + leNat (ctx.pad.take 4)
  let f1 := w1 + leNat ((ctx.pad.drop 4).take 4) + f0 / 2 ^ 32
  let f2 := w2 + leNat ((ctx.pad.drop 8).take 4) + f1 / 2 ^ 32
  let f3 := w3 + leNat ((ctx.pad.drop 12).take 4) + f2 / 2 ^ 32
  ⟨leBytes 4 f0 ++ leBytes 4 f1 ++ leBytes 4 f2 ++ leBytes 4 f3, by simp⟩

end ND.Impl.Poly1305

namespace ND.Impl.Aead

open ChaCha20 Poly1305

/-- `(16 - len % 16) % 16` zero bytes. -/
def pad16 (len : Nat) : Bytes := List.replicate ((16 - len % 16) % 16) 0

/-- `mac_aad_and_ciphertext`. An update of no bytes leaves the state as it is, so the C's guards
on the paddings need no counterpart. -/
def macAadAndCiphertext (mac : Poly1305Ctx) (aad ciphertext : Bytes) : Poly1305Ctx :=
  let mac := poly1305Update mac aad
  let mac := poly1305Update mac (pad16 aad.length)
  let mac := poly1305Update mac ciphertext
  let mac := poly1305Update mac (pad16 ciphertext.length)
  poly1305Update mac (leBytes 8 aad.length ++ leBytes 8 ciphertext.length)

/-- `mac_aad_and_ciphertext` with its guards, over any `update`. -/
def macBy {σ : Type} (update : σ → Bytes → σ) (mac : σ) (aad ciphertext : Bytes) : σ :=
  let mac := update mac aad
  let aadPad := (16 - aad.length % 16) % 16
  let mac := if aadPad ≠ 0 then update mac (List.replicate aadPad 0) else mac
  let mac := update mac ciphertext
  let ctPad := (16 - ciphertext.length % 16) % 16
  let mac := if ctPad ≠ 0 then update mac (List.replicate ctPad 0) else mac
  update mac (leBytes 8 aad.length ++ leBytes 8 ciphertext.length)

/-- The bytes that each update of `mac_aad_and_ciphertext` is given, in order. -/
def macUpdates (aad ciphertext : Bytes) : List Bytes :=
  macBy (fun calls data => calls ++ [data]) [] aad ciphertext

/-- `derive_otk`. -/
def deriveOtk (key : BytesN 32) (nonce : BytesN 12) : BytesN 32 :=
  ⟨(chacha20Block key nonce 0).take 32, by simp [length_chacha20Block]⟩

/-- The tag of `aad` and `ciphertext`. -/
def aeadTag (key : BytesN 32) (nonce : BytesN 12) (aad ciphertext : Bytes) : BytesN 16 :=
  poly1305Final (macAadAndCiphertext (poly1305Init (deriveOtk key nonce)) aad ciphertext)

/-- `nd_aead_chacha20poly1305_encrypt`: the ciphertext and the tag. -/
def aeadChacha20Poly1305Encrypt (key : BytesN 32) (nonce : BytesN 12) (aad plaintext : Bytes) :
    Bytes × BytesN 16 :=
  let ciphertext := chacha20Xor key nonce 1 plaintext
  (ciphertext, aeadTag key nonce aad ciphertext)

/-- `diff`, the `or` of the differences of two arrays: zero if they are equal. -/
def diffBytes (a b : Bytes) : Byte := (List.zipWith (· ^^^ ·) a b).foldl (· ||| ·) 0

/-- `nd_aead_chacha20poly1305_decrypt`. -/
def aeadChacha20Poly1305Decrypt (key : BytesN 32) (nonce : BytesN 12) (aad ciphertext : Bytes)
    (tag : BytesN 16) : Result Bytes :=
  let computedTag := aeadTag key nonce aad ciphertext
  if diffBytes computedTag.1 tag.1 ≠ 0 then .error .authFailed
  else .ok (chacha20Xor key nonce 1 ciphertext)

/-- `nd_aead_chacha20poly1305_decrypt` with the buffer `plaintext_out`: the status, and what the buffer holds
after the call. -/
def aeadChacha20Poly1305DecryptInto (key : BytesN 32) (nonce : BytesN 12) (aad ciphertext : Bytes)
    (tag : BytesN 16) (plaintextOut : Bytes) : Result Unit × Bytes :=
  let computedTag := aeadTag key nonce aad ciphertext
  if diffBytes computedTag.1 tag.1 ≠ 0 then (.error .authFailed, plaintextOut)
  else if plaintextOut.length < ciphertext.length then (.error .ub, plaintextOut)
  else (.ok (), patch plaintextOut 0 (chacha20Xor key nonce 1 ciphertext))

end ND.Impl.Aead
