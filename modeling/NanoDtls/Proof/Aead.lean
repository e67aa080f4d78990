import NanoDtls.Impl.Aead
import Mathlib.Data.Nat.Bits

/-!
# The AEAD undoes itself

ChaCha20 is an exclusive or with a keystream that does not depend on the data,
so applying it twice gives the data back (`chacha20Xor_chacha20Xor`), and the
tag of what was encrypted is the tag that decryption computes
(`decrypt_encrypt`). Decryption accepts nothing else
(`decrypt_accepts_encryptions`).
-/

namespace ND.Proof.Aead

open ND.Impl ND.Impl.ChaCha20 ND.Impl.Aead

theorem zipWith_xor_zipWith_xor : ∀ (a k : Bytes), a.length ≤ k.length →
    List.zipWith (· ^^^ ·) (List.zipWith (· ^^^ ·) a k) k = a
  | [], _, _ => rfl
  | _ :: _, [], h => absurd h (by simp)
  | x :: a, y :: k, h => by
    simp only [List.zipWith_cons_cons, BitVec.xor_assoc, BitVec.xor_self, BitVec.xor_zero,
      zipWith_xor_zipWith_xor a k (by simpa using h)]

theorem length_xorLoop (key : BytesN 32) (nonce : BytesN 12) :
    ∀ (fuel : Nat) (c : Word) (data : Bytes), data.length ≤ fuel →
      (xorLoop key nonce fuel c data).length = data.length
  | 0, _, data, h => by simp only [xorLoop, List.length_nil]; omega
  | fuel + 1, c, data, h => by
    rw [xorLoop]
    split
    · rename_i h0; rw [h0]; rfl
    · simp only [List.length_append, List.length_zipWith, List.length_take, length_chacha20Block]
      rw [length_xorLoop key nonce fuel _ _ (by rw [List.length_drop]; omega), List.length_drop]
      omega

@[simp] theorem length_chacha20Xor (key : BytesN 32) (nonce : BytesN 12) (c : Word) (data : Bytes) :
    (chacha20Xor key nonce c data).length = data.length :=
  length_xorLoop key nonce _ c data (Nat.le_refl _)

/-- The loop on its own output: each turn meets the block it was made with. -/
theorem xorLoop_xorLoop (key : BytesN 32) (nonce : BytesN 12) :
    ∀ (fuel : Nat) (c : Word) (data : Bytes), data.length ≤ fuel →
      xorLoop key nonce fuel c (xorLoop key nonce fuel c data) = data
  | 0, _, data, h => by rw [List.length_eq_zero_iff.mp (Nat.le_zero.mp h)]; rfl
  | fuel + 1, c, data, h => by
    by_cases h0 : data.length = 0
    · rw [List.length_eq_zero_iff.mp h0]; rfl
    have hrest : (data.drop 64).length ≤ fuel := by rw [List.length_drop]; omega
    have hl := length_xorLoop key nonce fuel (c + 1) _ hrest
    have hz : (List.zipWith (· ^^^ ·) (data.take 64) (chacha20Block key nonce c)).length =
        min 64 data.length := by
      rw [List.length_zipWith, List.length_take, length_chacha20Block]; omega
    rw [xorLoop.eq_2 key nonce c data, if_neg h0]
    dsimp only
    rw [xorLoop, if_neg (by rw [List.length_append, hz]; omega)]
    dsimp only
    by_cases hd : data.length ≤ 64
    · -- the last block: nothing is left after it
      have he : data.drop 64 = [] := List.drop_eq_nil_of_le hd
      rw [he] at hl ⊢
      rw [List.length_eq_zero_iff.mp hl, List.append_nil, List.take_of_length_le (by rw [hz]; omega),
        List.drop_eq_nil_of_le (by rw [hz]; omega), List.take_of_length_le hd,
        zipWith_xor_zipWith_xor _ _ (by rw [length_chacha20Block]; exact hd)]
      cases fuel <;> simp [xorLoop]
    · rw [List.take_left' (by rw [hz]; omega), List.drop_left' (by rw [hz]; omega),
        xorLoop_xorLoop key nonce fuel (c + 1) _ hrest,
        zipWith_xor_zipWith_xor _ _ (by rw [length_chacha20Block, List.length_take]; omega),
        List.take_append_drop]

theorem chacha20Xor_chacha20Xor (key : BytesN 32) (nonce : BytesN 12) (c : Word) (data : Bytes) :
    chacha20Xor key nonce c (chacha20Xor key nonce c data) = data := by
  rw [chacha20Xor, length_chacha20Xor]
  exact xorLoop_xorLoop key nonce _ c data (Nat.le_refl _)

theorem foldl_or_eq_zero : ∀ (l : Bytes) (v : Byte),
    l.foldl (· ||| ·) v = 0 ↔ v = 0 ∧ ∀ b ∈ l, b = 0
  | [], v => by simp
  | b :: l, v => by
    rw [List.foldl_cons, foldl_or_eq_zero l, List.forall_mem_cons, ← and_assoc]
    refine and_congr_left fun _ => ?_
    simp

theorem zipWith_xor_zero : ∀ (a b : Bytes), a.length = b.length →
    ((∀ d ∈ List.zipWith (· ^^^ ·) a b, d = 0) ↔ a = b)
  | [], b, h => by rw [List.length_eq_zero_iff.mp h.symm]; simp
  | x :: a, [], h => absurd h (by simp)
  | x :: a, y :: b, h => by
    rw [List.zipWith_cons_cons, List.forall_mem_cons, zipWith_xor_zero a b (by simpa using h)]
    simp only [List.cons.injEq]
    exact and_congr_left fun _ => BitVec.xor_eq_zero_iff

/-- The constant-time comparison decides equality. -/
theorem diffBytes_eq_zero {a b : Bytes} (h : a.length = b.length) : diffBytes a b = 0 ↔ a = b := by
  rw [diffBytes, foldl_or_eq_zero, zipWith_xor_zero a b h]
  simp

/-- Decryption is defined by the tag: it accepts that of its own ciphertext only. -/
theorem decrypt_eq (key : BytesN 32) (nonce : BytesN 12) (aad c : Bytes) (tag : BytesN 16) :
    aeadChacha20Poly1305Decrypt key nonce aad c tag =
      if aeadTag key nonce aad c = tag then .ok (chacha20Xor key nonce 1 c) else .error .authFailed := by
  simp only [aeadChacha20Poly1305Decrypt, ne_eq, ite_not, Subtype.ext_iff,
    diffBytes_eq_zero ((aeadTag key nonce aad c).2.trans tag.2.symm)]

theorem avoids_decrypt (key : BytesN 32) (nonce : BytesN 12) (aad c : Bytes) (tag : BytesN 16) :
    Avoids .ub (aeadChacha20Poly1305Decrypt key nonce aad c tag) := by
  rw [decrypt_eq]
  split
  · exact avoids_ok _
  · exact avoids_error (by decide)

theorem decrypt_encrypt (key : BytesN 32) (nonce : BytesN 12) (aad p : Bytes) :
    aeadChacha20Poly1305Decrypt key nonce aad (aeadChacha20Poly1305Encrypt key nonce aad p).1
      (aeadChacha20Poly1305Encrypt key nonce aad p).2 = .ok p := by
  rw [decrypt_eq]
  simp only [aeadChacha20Poly1305Encrypt, ↓reduceIte, chacha20Xor_chacha20Xor]

/-- What encrypts to a ciphertext and a tag: the ciphertext under the keystream, if the tag is its own. -/
theorem encrypt_eq_iff (key : BytesN 32) (nonce : BytesN 12) (aad p c : Bytes) (tag : BytesN 16) :
    aeadChacha20Poly1305Encrypt key nonce aad p = (c, tag) ↔
      p = chacha20Xor key nonce 1 c ∧ aeadTag key nonce aad c = tag := by
  rw [aeadChacha20Poly1305Encrypt, Prod.mk.injEq]
  constructor
  · rintro ⟨rfl, htag⟩
    exact ⟨(chacha20Xor_chacha20Xor key nonce 1 p).symm, htag⟩
  · rintro ⟨rfl, htag⟩
    rw [chacha20Xor_chacha20Xor]
    exact ⟨rfl, htag⟩

theorem decrypt_eq_ok_iff (key : BytesN 32) (nonce : BytesN 12) (aad c p : Bytes) (tag : BytesN 16) :
    aeadChacha20Poly1305Decrypt key nonce aad c tag = .ok p ↔ aeadChacha20Poly1305Encrypt key nonce aad p = (c, tag) := by
  rw [decrypt_eq, encrypt_eq_iff]
  by_cases htag : aeadTag key nonce aad c = tag
  · rw [if_pos htag, Except.ok.injEq, eq_comm]
    exact (and_iff_left htag).symm
  · rw [if_neg htag]
    exact ⟨nofun, fun h => absurd h.2 htag⟩

theorem decrypt_eq_error (key : BytesN 32) (nonce : BytesN 12) (aad c : Bytes) (tag : BytesN 16)
    (h : ∀ p, aeadChacha20Poly1305Encrypt key nonce aad p ≠ (c, tag)) :
    aeadChacha20Poly1305Decrypt key nonce aad c tag = .error .authFailed := by
  rw [decrypt_eq, if_neg]
  intro htag
  exact h _ ((encrypt_eq_iff key nonce aad _ c tag).mpr ⟨rfl, htag⟩)

/-- The output buffer holds the plaintext after a decryption that succeeds, and is as it was after one that fails. -/
theorem decryptInto_eq (key : BytesN 32) (nonce : BytesN 12) (aad c : Bytes) (tag : BytesN 16) {out : Bytes}
    (hout : c.length ≤ out.length) : aeadChacha20Poly1305DecryptInto key nonce aad c tag out =
      match aeadChacha20Poly1305Decrypt key nonce aad c tag with
      | .ok p => (.ok (), p ++ out.drop p.length)
      | .error st => (.error st, out) := by
  unfold aeadChacha20Poly1305DecryptInto aeadChacha20Poly1305Decrypt
  dsimp only
  by_cases hdiff : diffBytes (aeadTag key nonce aad c).1 tag.1 ≠ 0
  · rw [if_pos hdiff, if_pos hdiff]
  · rw [if_neg hdiff, if_neg hdiff, if_neg (by omega), patch, List.take_zero, List.nil_append, Nat.zero_add]

/-- For every key, nonce, additional data, ciphertext and tag: decryption succeeds with `p` iff the encryption of `p`
is this ciphertext with this tag; otherwise it fails with `authFailed`, and the output buffer is as it was. -/
theorem decrypt_accepts_encryptions (key : BytesN 32) (nonce : BytesN 12) (aad c : Bytes) (tag : BytesN 16) (out : Bytes)
    (hout : c.length ≤ out.length) :
    (∀ p, aeadChacha20Poly1305Decrypt key nonce aad c tag = .ok p ↔
      aeadChacha20Poly1305Encrypt key nonce aad p = (c, tag)) ∧
    (∀ p, aeadChacha20Poly1305Encrypt key nonce aad p = (c, tag) →
      aeadChacha20Poly1305DecryptInto key nonce aad c tag out = (.ok (), p ++ out.drop c.length)) ∧
    ((∀ p, aeadChacha20Poly1305Encrypt key nonce aad p ≠ (c, tag)) →
      aeadChacha20Poly1305Decrypt key nonce aad c tag = .error .authFailed ∧
      aeadChacha20Poly1305DecryptInto key nonce aad c tag out = (.error .authFailed, out)) := by
  refine ⟨fun p => decrypt_eq_ok_iff key nonce aad c p tag, ?_, ?_⟩
  · intro p hp
    have hlen : p.length = c.length := by
      rw [((encrypt_eq_iff key nonce aad p c tag).mp hp).1, length_chacha20Xor]
    rw [decryptInto_eq key nonce aad c tag hout, (decrypt_eq_ok_iff key nonce aad c p tag).mpr hp, ← hlen]
  · intro hnone
    have herror := decrypt_eq_error key nonce aad c tag hnone
    exact ⟨herror, by rw [decryptInto_eq key nonce aad c tag hout, herror]⟩

theorem decrypt_accepts_encryptions_sample :
    aeadChacha20Poly1305DecryptInto (zeros 32) (zeros 12) [] (aeadChacha20Poly1305Encrypt (zeros 32) (zeros 12) [] [7]).1
      (aeadChacha20Poly1305Encrypt (zeros 32) (zeros 12) [] [7]).2 [0, 1] = (.ok (), [7, 1]) := by
  have h := (decrypt_accepts_encryptions (zeros 32) (zeros 12) [] _ _ [0, 1]
    (by rw [length_chacha20Xor]; decide)).2.1 [7] rfl
  rw [length_chacha20Xor] at h
  exact h

end ND.Proof.Aead
