import NanoDtls.Spec.Fips180

/-!
# The hash is SHA-256

The buffering of `sha256Update` is that of feeding byte after byte
(`stream_sha256Update`), so a string fed in pieces gives the hash of the whole
string (`sha256Update_append`), and the padding of `sha256Final` is fed like
the message (`stream_padLoop`). A compression is that of the standard
(`sha256Compress_eq`): the message schedule word by word, the rounds one by
one. Together, `sha256_eq`: the digest of every message whose bits can be
counted in 64 bits.
-/

namespace ND.Proof.Sha256

open ND.Impl.Sha256
open Buffered (feedAll feedAll_append)

/-! ## The stream -/

/-- The hash of the blocks so far, and the bytes buffered. -/
def stream (ctx : Sha256Ctx) : Buffered Hash Byte := ⟨ctx.h, ctx.buf⟩

/-- The buffer has room, as it always has between two updates. -/
def Ready (ctx : Sha256Ctx) : Prop := ctx.buf.length < 64

theorem ready_init : Ready sha256Init := Nat.zero_lt_succ _

theorem ready_iff {ctx : Sha256Ctx} : Ready ctx ↔ (stream ctx).buf.length < 64 := Iff.rfl

theorem ctx_ext {ctx ctx' : Sha256Ctx} (hs : stream ctx = stream ctx') (hl : ctx.totalLen = ctx'.totalLen) : ctx = ctx' := by
  cases ctx
  cases ctx'
  simp only [stream, Buffered.mk.injEq] at hs hl
  simp only [hs, hl]

/-- A turn of the loop takes the bytes that fill the buffer, or all that are left. -/
theorem stream_turn (ctx : Sha256Ctx) (piece : Bytes) (h0 : piece ≠ []) (h : ctx.buf.length + piece.length ≤ 64) :
    stream (if (ctx.buf ++ piece).length = 64 then { ctx with h := sha256Compress ctx.h (ctx.buf ++ piece), buf := [] }
      else { ctx with buf := ctx.buf ++ piece }) = feedAll 64 sha256Compress (stream ctx) piece := by
  rw [Buffered.feedAll_of_le piece (stream ctx) h0 h, show (stream ctx).buf = ctx.buf from rfl]
  by_cases hfull : (ctx.buf ++ piece).length = 64
  · rw [if_pos hfull, if_pos hfull]
    rfl
  · rw [if_neg hfull, if_neg hfull]
    rfl

/-- The loop of `nd_sha256_update` feeds byte after byte. -/
theorem stream_updateLoop : ∀ (fuel : Nat) (ctx : Sha256Ctx) (data : Bytes), Ready ctx → data.length ≤ fuel →
    stream (updateLoop fuel ctx data) = feedAll 64 sha256Compress (stream ctx) data
  | 0, _, data, _, h => by
    rw [List.length_eq_zero_iff.mp (Nat.le_zero.mp h)]
    rfl
  | fuel + 1, ctx, data, hr, h => by
    by_cases hd : data.length = 0
    · rw [updateLoop, if_pos hd, List.length_eq_zero_iff.mp hd, Buffered.feedAll_nil]
    · have hroom : ctx.buf.length < 64 := hr
      have hlen : (data.take (min (64 - ctx.buf.length) data.length)).length = min (64 - ctx.buf.length) data.length := by
        rw [List.length_take]; omega
      have hturn := stream_turn ctx (data.take (min (64 - ctx.buf.length) data.length))
        (List.ne_nil_of_length_pos (by omega)) (by omega)
      rw [updateLoop, if_neg hd]
      simp only
      rw [stream_updateLoop fuel, hturn, ← feedAll_append, List.take_append_drop]
      · rw [ready_iff, hturn]
        exact Buffered.feedAll_room _ hr
      · rw [List.length_drop]; omega

/-- The length counter does not take part. -/
theorem totalLen_updateLoop : ∀ (fuel : Nat) (ctx : Sha256Ctx) (data : Bytes),
    (updateLoop fuel ctx data).totalLen = ctx.totalLen
  | 0, _, _ => rfl
  | fuel + 1, ctx, data => by
    unfold updateLoop
    split
    · rfl
    · simp only
      rw [totalLen_updateLoop fuel]
      split <;> rfl

theorem stream_sha256Update {ctx : Sha256Ctx} (h : Ready ctx) (data : Bytes) :
    stream (sha256Update ctx data) = feedAll 64 sha256Compress (stream ctx) data :=
  stream_updateLoop _ _ _ h (Nat.le_refl _)

theorem totalLen_sha256Update (ctx : Sha256Ctx) (data : Bytes) :
    (sha256Update ctx data).totalLen = (ctx.totalLen + data.length) % 2 ^ 64 :=
  totalLen_updateLoop _ _ _

theorem Ready.update {ctx : Sha256Ctx} (h : Ready ctx) (data : Bytes) : Ready (sha256Update ctx data) := by
  rw [ready_iff, stream_sha256Update h]
  exact Buffered.feedAll_room data h

theorem length_buf_sha256Update {ctx : Sha256Ctx} (h : Ready ctx) (data : Bytes) :
    (sha256Update ctx data).buf.length = (ctx.buf.length + data.length) % 64 := by
  rw [show (sha256Update ctx data).buf = (stream (sha256Update ctx data)).buf from rfl, stream_sha256Update h]
  exact Buffered.length_buf_feedAll data h

/-- Two updates are one with both strings. -/
theorem sha256Update_append {ctx : Sha256Ctx} (h : Ready ctx) (a b : Bytes) :
    sha256Update (sha256Update ctx a) b = sha256Update ctx (a ++ b) := by
  apply ctx_ext
  · rw [stream_sha256Update (h.update a), stream_sha256Update h, stream_sha256Update h, feedAll_append]
  · rw [totalLen_sha256Update, totalLen_sha256Update, totalLen_sha256Update, List.length_append, Nat.mod_add_mod,
      Nat.add_assoc]

/-- A run of updates is one with all the strings. -/
theorem foldl_sha256Update : ∀ (msgs : List Bytes) {ctx : Sha256Ctx}, Ready ctx → ∀ {a : Bytes},
    msgs.foldl sha256Update (sha256Update ctx a) = sha256Update ctx (a ++ msgs.flatten)
  | [], _, _, _ => by rw [List.flatten_nil, List.append_nil, List.foldl_nil]
  | m :: msgs, ctx, h, a => by
    rw [List.foldl_cons, sha256Update_append h, foldl_sha256Update msgs h, List.flatten_cons, List.append_assoc]

/-! ## The padding -/

/-- The padding loop feeds the zero bytes that leave room for the length alone. -/
theorem stream_padLoop : ∀ (fuel : Nat) {ctx : Sha256Ctx}, Ready ctx → (120 - ctx.buf.length) % 64 < fuel →
    stream (padLoop fuel ctx) =
      feedAll 64 sha256Compress (stream ctx) (List.replicate ((120 - ctx.buf.length) % 64) 0)
  | fuel + 1, ctx, hr, h => by
    have hroom : ctx.buf.length < 64 := hr
    unfold padLoop
    split
    · rename_i hfull
      rw [hfull]
      rfl
    · rename_i hfull
      have hbuf : (sha256Update ctx [0]).buf.length = (ctx.buf.length + 1) % 64 := length_buf_sha256Update hr [0]
      -- one zero fewer is left
      have hstep : (120 - ctx.buf.length) % 64 = (120 - (sha256Update ctx [0]).buf.length) % 64 + 1 := by omega
      rw [stream_padLoop fuel (hr.update _) (by omega), stream_sha256Update hr, ← feedAll_append, hstep,
        List.replicate_succ, List.singleton_append]

/-- The digest of a stream: the padding is fed like the message. -/
theorem sha256Final_eq {ctx : Sha256Ctx} (hr : Ready ctx) : (sha256Final ctx).1.1 =
    digest (feedAll 64 sha256Compress (stream ctx) ([0x80] ++ List.replicate (Spec.Fips180.zeroBytes ctx.buf.length) 0 ++
      beBytes 8 (ctx.totalLen * 8 % 2 ^ 64))).state := by
  have hroom : ctx.buf.length < 64 := hr
  have hzeros : (120 - (sha256Update ctx [0x80]).buf.length) % 64 = Spec.Fips180.zeroBytes ctx.buf.length := by
    rw [Spec.Fips180.zeroBytes, length_buf_sha256Update hr, List.length_singleton]
    omega
  have hpad := stream_padLoop 64 (hr.update [0x80]) (Nat.mod_lt _ (by decide))
  rw [hzeros, stream_sha256Update hr, ← feedAll_append] at hpad
  have hready : Ready (padLoop 64 (sha256Update ctx [0x80])) := by
    rw [ready_iff, hpad]
    exact Buffered.feedAll_room _ hr
  have hfinal := stream_sha256Update hready (beBytes 8 (ctx.totalLen * 8 % 2 ^ 64))
  rw [hpad, ← feedAll_append] at hfinal
  rw [← hfinal, stream, sha256Final]

theorem totalLen_padLoop : ∀ (fuel : Nat) (ctx : Sha256Ctx), ∃ zeros ≤ fuel,
    (padLoop fuel ctx).totalLen % 2 ^ 64 = (ctx.totalLen + zeros) % 2 ^ 64
  | 0, _ => ⟨0, le_rfl, rfl⟩
  | fuel + 1, ctx => by
    unfold padLoop
    split
    · exact ⟨0, Nat.zero_le _, rfl⟩
    · obtain ⟨zeros, hzeros, htotal⟩ := totalLen_padLoop fuel (sha256Update ctx [0])
      rw [totalLen_sha256Update, List.length_singleton] at htotal
      exact ⟨zeros + 1, Nat.succ_le_succ hzeros, by omega⟩

/-- Finishing a context changes it: the padding is counted. -/
theorem sha256Final_ne (ctx : Sha256Ctx) : (sha256Final ctx).2 ≠ ctx := by
  intro h
  obtain ⟨zeros, hzeros, htotal⟩ := totalLen_padLoop 64 (sha256Update ctx [0x80])
  have hlen : (sha256Final ctx).2.totalLen = ((padLoop 64 (sha256Update ctx [0x80])).totalLen + 8) % 2 ^ 64 := by
    rw [sha256Final, totalLen_sha256Update, length_beBytes]
  rw [totalLen_sha256Update, List.length_singleton] at htotal
  rw [h] at hlen
  omega

/-! ## A compression -/

theorem rotr32_eq (x : Word) {n : Nat} (hn : n < 32) : rotr32 x n = x.rotateRight n :=
  (BitVec.rotateRight_eq_rotateRightAux_of_lt hn).symm

theorem scheduleWord_eq (block : Bytes) {t : Nat} (ht : 16 ≤ t) :
    scheduleWord ((List.range t).map (Spec.Fips180.W block)) t = Spec.Fips180.W block t := by
  have hget : ∀ d, 0 < d → d ≤ 16 →
      ((List.range t).map (Spec.Fips180.W block)).getD (t - d) 0 = Spec.Fips180.W block (t - d) := by
    intro d hd hd'
    rw [List.getD_eq_getElem?_getD, List.getElem?_map, List.getElem?_range (by omega)]
    rfl
  simp only [scheduleWord]
  rw [hget 15 (by decide) (by decide), hget 2 (by decide) (by decide), hget 16 (by decide) (by decide),
    hget 7 (by decide) (by decide), Spec.Fips180.W.eq_1 block t, if_neg (by omega)]
  simp (disch := decide) only [rotr32_eq, Spec.Fips180.smallSigma0, Spec.Fips180.smallSigma1]
  ac_rfl

theorem foldl_scheduleWord (block : Bytes) : ∀ n,
    (List.range' 16 n).foldl (fun w i => w ++ [scheduleWord w i]) (blockWords block) =
      (List.range (16 + n)).map (Spec.Fips180.W block)
  | 0 => by
    refine List.map_congr_left fun i hi => ?_
    rw [Spec.Fips180.W, if_pos (List.mem_range.mp hi), Nat.mul_comm]
  | n + 1 => by
    rw [List.range'_concat, List.foldl_append, foldl_scheduleWord block n, List.foldl_cons, List.foldl_nil, Nat.one_mul,
      scheduleWord_eq block (by omega), ← Nat.add_assoc, List.range_succ, List.map_append, List.map_singleton]

theorem round_eq (block : Bytes) (v : Hash) (t : Nat) :
    Impl.Sha256.round v (Spec.Fips180.K t) (Spec.Fips180.W block t) = Spec.Fips180.round block v t := by
  simp (disch := decide) only [Impl.Sha256.round, rotr32_eq]
  rfl

theorem primes_eq : Spec.Fips180.primes =
    [2, 3, 5, 7, 11, 13, 17, 19, 23, 29, 31, 37, 41, 43, 47, 53, 59, 61, 67, 71, 73, 79, 83, 89, 97, 101, 103, 107, 109,
     113, 127, 131, 137, 139, 149, 151, 157, 163, 167, 173, 179, 181, 191, 193, 197, 199, 211, 223, 227, 229, 233, 239,
     241, 251, 257, 263, 269, 271, 277, 281, 283, 293, 307, 311] := by
  decide +kernel

theorem K_eq : K = (List.range 64).map Spec.Fips180.K := by
  have hK : Spec.Fips180.K = fun t => Spec.Fips180.rootFraction 3 (Spec.Fips180.primes.getD t 0) := rfl
  rw [hK, primes_eq]
  decide +kernel

theorem init_eq : sha256Init.h = Spec.Fips180.H0 := by
  rw [Spec.Fips180.H0, primes_eq]
  decide +kernel

/-- `sha256_compress` is the compression of the standard. -/
theorem sha256Compress_eq : sha256Compress = Spec.Fips180.compress := by
  funext h block
  have hrounds : (K.zip (schedule block)).foldl (fun v kw => Impl.Sha256.round v kw.1 kw.2) h =
      (List.range 64).foldl (Spec.Fips180.round block) h := by
    rw [schedule, foldl_scheduleWord, K_eq, List.zip_map', List.foldl_map]
    simp only [round_eq]
  simp only [sha256Compress, Spec.Fips180.compress, hrounds, BitVec.add_comm]

/-! ## The digest -/

theorem digest_eq (H : Hash) : digest H = beBytes 4 H.a.toNat ++ beBytes 4 H.b.toNat ++ beBytes 4 H.c.toNat ++
    beBytes 4 H.d.toNat ++ beBytes 4 H.e.toNat ++ beBytes 4 H.f.toNat ++ beBytes 4 H.g.toNat ++ beBytes 4 H.h.toNat := by
  simp only [digest, List.flatMap_cons, List.flatMap_nil, List.append_nil, List.append_assoc]

/-- The digest is that of the standard if the number of bits in the padding is. -/
theorem sha256_eq_of_bits {msg : Bytes} (h : beBytes 8 (msg.length % 2 ^ 64 * 8 % 2 ^ 64) = beBytes 8 (8 * msg.length)) :
    (sha256 msg).1 = Spec.Fips180.sha256 msg := by
  have hstream : stream (sha256Update sha256Init msg) = feedAll 64 sha256Compress ⟨sha256Init.h, []⟩ msg :=
    stream_sha256Update ready_init msg
  have hlen : (sha256Update sha256Init msg).totalLen = msg.length % 2 ^ 64 := by
    rw [totalLen_sha256Update, show sha256Init.totalLen = 0 from rfl, Nat.zero_add]
  have hbuf : (sha256Update sha256Init msg).buf.length = msg.length % 64 := by
    rw [length_buf_sha256Update ready_init, show sha256Init.buf = [] from rfl, List.length_nil, Nat.zero_add]
  have hzeros : Spec.Fips180.zeroBytes (msg.length % 64) = Spec.Fips180.zeroBytes msg.length := by
    rw [Spec.Fips180.zeroBytes, Nat.mod_mod]
    rfl
  rw [sha256, sha256Final_eq (ready_init.update msg), hstream, hlen, h, hbuf, hzeros, ← feedAll_append, ← List.append_assoc,
    ← List.append_assoc, ← Spec.Fips180.pad, Buffered.feedAll_chunks (by decide) _ (Spec.Fips180.length_pad msg),
    sha256Compress_eq, init_eq, digest_eq]
  rfl

/-- `nd_sha256` is the hash of the standard. -/
theorem sha256_eq {msg : Bytes} (h : msg.length < 2 ^ 61) : (sha256 msg).1 = Spec.Fips180.sha256 msg := by
  apply sha256_eq_of_bits
  rw [Nat.mod_eq_of_lt (by omega), Nat.mod_eq_of_lt (by omega), Nat.mul_comm]

/-- It is for longer messages too: the low 64 bits of their length are in the padding. -/
theorem sha256_eq_long (msg : Bytes) : (sha256 msg).1 = Spec.Fips180.sha256 msg := by
  apply sha256_eq_of_bits
  rw [← beBytes_mod 8 8 (8 * msg.length) (Nat.le_refl 8)]
  congr 1
  omega

-- the hash of `abc`
example : Spec.Fips180.sha256 [0x61, 0x62, 0x63] =
    [0xba, 0x78, 0x16, 0xbf, 0x8f, 0x01, 0xcf, 0xea, 0x41, 0x41, 0x40, 0xde, 0x5d, 0xae, 0x22, 0x23,
     0xb0, 0x03, 0x61, 0xa3, 0x96, 0x17, 0x7a, 0x9c, 0xb4, 0x10, 0xff, 0x61, 0xf2, 0x00, 0x15, 0xad] := by
  rw [← sha256_eq (by decide)]
  decide +kernel

end ND.Proof.Sha256
