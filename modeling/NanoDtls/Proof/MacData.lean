import NanoDtls.Proof.Poly1305.Stream
import NanoDtls.Spec.Aead

/-!
# The string that the tag of the AEAD authenticates

`mac_aad_and_ciphertext` streams its data into Poly1305 in three to five
updates. One after the other their bytes are the string of RFC 8439
(`flatten_macUpdates`), so that the state after them is the one after a
single update with that string. The string determines the additional data
and the ciphertext: its last 16 bytes are the lengths, and with these the
rest can be split (`macData_inj`).
-/

namespace ND.Proof.Aead

open ND.Impl.Aead ND.Impl.Poly1305
open ND.Spec.Aead (macData)

/-! ## The updates -/

/-- The zeros of the C, whose count is reduced modulo 16 once more. -/
theorem pad16_eq (x : Bytes) : Spec.Aead.pad16 x = pad16 x.length := by
  rw [Spec.Aead.pad16, pad16]
  have hlt : x.length % 16 < 16 := Nat.mod_lt _ (by decide)
  split
  next h0 => rw [h0]; rfl
  next h0 => rw [Nat.mod_eq_of_lt (show 16 - x.length % 16 < 16 by omega)]

/-- The calls are the same for every `update`. -/
theorem macBy_eq {σ : Type} (update : σ → Bytes → σ) (mac : σ) (aad ciphertext : Bytes) :
    macBy update mac aad ciphertext = (macUpdates aad ciphertext).foldl update mac := by
  simp only [macUpdates, macBy]
  split <;> split <;> simp only [List.nil_append, List.foldl_append, List.foldl_cons, List.foldl_nil]

theorem poly1305Update_nil (mac : Poly1305Ctx) : poly1305Update mac [] = mac := rfl

/-- A padding of no bytes, with and without the guard. -/
theorem poly1305Update_pad16 (mac : Poly1305Ctx) (len : Nat) :
    poly1305Update mac (pad16 len) =
      if (16 - len % 16) % 16 ≠ 0 then poly1305Update mac (List.replicate ((16 - len % 16) % 16) 0) else mac := by
  split
  next h => rfl
  next h => rw [pad16, not_not.mp h, List.replicate_zero, poly1305Update_nil]

theorem macAadAndCiphertext_eq (mac : Poly1305Ctx) (aad ciphertext : Bytes) :
    macAadAndCiphertext mac aad ciphertext = (macUpdates aad ciphertext).foldl poly1305Update mac := by
  rw [← macBy_eq]
  simp only [macAadAndCiphertext, poly1305Update_pad16, macBy]

theorem flatten_macUpdates (aad ciphertext : Bytes) : (macUpdates aad ciphertext).flatten = macData aad ciphertext := by
  simp only [macData, pad16_eq, pad16, macUpdates, macBy]
  split <;> split <;> simp_all

/-- The state after updates, as the one after a single update. -/
theorem foldl_poly1305Update {mac : Poly1305Ctx} (hroom : mac.buf.length < 16) (pieces : List Bytes) :
    pieces.foldl poly1305Update mac = Poly1305.fed mac pieces.flatten := by
  induction pieces generalizing mac with
  | nil => rfl
  | cons piece pieces ih =>
    rw [List.foldl_cons, Poly1305.poly1305Update_eq hroom, ih (Poly1305.fed_room hroom piece), Poly1305.fed_append,
      List.flatten_cons]

theorem final_macAadAndCiphertext (otk : BytesN 32) (aad ciphertext : Bytes) :
    poly1305Final (macAadAndCiphertext (poly1305Init otk) aad ciphertext) = Spec.Poly1305.mac otk (macData aad ciphertext) := by
  have hroom : (poly1305Init otk).buf.length < 16 := Nat.zero_lt_succ _
  rw [macAadAndCiphertext_eq, foldl_poly1305Update hroom, flatten_macUpdates, Poly1305.final_fed]

/-! ## The string -/

theorem length_pad16 (x : Bytes) : (x.length + (Spec.Aead.pad16 x).length) % 16 = 0 := by
  rw [Spec.Aead.pad16]
  split
  next h0 => exact h0
  next h0 =>
    rw [List.length_replicate]
    omega

theorem length_macData (aad ciphertext : Bytes) : (macData aad ciphertext).length % 16 = 0 := by
  have haad := length_pad16 aad
  have hct := length_pad16 ciphertext
  simp only [macData, List.length_append, length_leBytes]
  omega

theorem leBytes_inj {n a b : Nat} (ha : a < 256 ^ n) (hb : b < 256 ^ n) (h : leBytes n a = leBytes n b) : a = b := by
  have hval := congrArg leNat h
  rwa [leNat_leBytes, leNat_leBytes, Nat.mod_eq_of_lt ha, Nat.mod_eq_of_lt hb] at hval

theorem pad16_congr {x y : Bytes} (h : x.length = y.length) : Spec.Aead.pad16 x = Spec.Aead.pad16 y := by
  rw [pad16_eq, pad16_eq, h]

theorem macData_inj {aad ciphertext aad' ciphertext' : Bytes} (haad : aad.length < 2 ^ 64)
    (hct : ciphertext.length < 2 ^ 64) (haad' : aad'.length < 2 ^ 64) (hct' : ciphertext'.length < 2 ^ 64)
    (h : macData aad ciphertext = macData aad' ciphertext') : aad = aad' ∧ ciphertext = ciphertext' := by
  rw [macData, macData] at h
  -- the lengths, from the end of the string
  obtain ⟨h, hctBytes⟩ := List.append_inj' h (by rw [length_leBytes, length_leBytes])
  obtain ⟨h, haadBytes⟩ := List.append_inj' h (by rw [length_leBytes, length_leBytes])
  have haadLen : aad.length = aad'.length := leBytes_inj haad haad' haadBytes
  have hctLen : ciphertext.length = ciphertext'.length := leBytes_inj hct hct' hctBytes
  -- the rest, split at equal lengths
  rw [pad16_congr haadLen, pad16_congr hctLen, List.append_left_inj] at h
  obtain ⟨h, hciphertext⟩ := List.append_inj' h hctLen
  exact ⟨List.append_cancel_right h, hciphertext⟩

/-- For every additional data and ciphertext: the bytes of the updates are the string of RFC 8439, a multiple of 16
bytes long; the state and the tag are those of this string in one update; and it determines what went into it. -/
theorem mac_framing (aad ciphertext : Bytes) (haad : aad.length < 2 ^ 64) (hct : ciphertext.length < 2 ^ 64) :
    (∀ mac, macAadAndCiphertext mac aad ciphertext = (macUpdates aad ciphertext).foldl poly1305Update mac) ∧
    (macUpdates aad ciphertext).flatten = macData aad ciphertext ∧
    (macUpdates aad ciphertext).flatten.length % 16 = 0 ∧
    (∀ mac : Poly1305Ctx, mac.buf.length < 16 →
      macAadAndCiphertext mac aad ciphertext = poly1305Update mac (macData aad ciphertext)) ∧
    (∀ otk : BytesN 32, poly1305Final (macAadAndCiphertext (poly1305Init otk) aad ciphertext) =
      Spec.Poly1305.mac otk (macData aad ciphertext)) ∧
    ∀ aad' ciphertext' : Bytes, aad'.length < 2 ^ 64 → ciphertext'.length < 2 ^ 64 →
      (macUpdates aad' ciphertext').flatten = (macUpdates aad ciphertext).flatten →
      aad' = aad ∧ ciphertext' = ciphertext := by
  have hfed {mac : Poly1305Ctx} (hroom : mac.buf.length < 16) :
      macAadAndCiphertext mac aad ciphertext = Poly1305.fed mac (macData aad ciphertext) := by
    rw [macAadAndCiphertext_eq, foldl_poly1305Update hroom, flatten_macUpdates]
  refine ⟨fun mac => macAadAndCiphertext_eq mac aad ciphertext, flatten_macUpdates aad ciphertext, ?_, ?_, ?_, ?_⟩
  · rw [flatten_macUpdates, length_macData]
  · intro mac hroom
    rw [hfed hroom, Poly1305.poly1305Update_eq hroom]
  · intro otk
    rw [hfed (show (poly1305Init otk).buf.length < 16 from Nat.zero_lt_succ _), Poly1305.final_fed]
  · intro aad' ciphertext' haad' hct' h
    rw [flatten_macUpdates, flatten_macUpdates] at h
    exact macData_inj haad' hct' haad hct h

/-- A zero at the end of the additional data, and one that the padding adds. -/
theorem mac_framing_zero :
    (macUpdates [1, 0] []).flatten ≠ (macUpdates [1] []).flatten ∧
    (macUpdates [1] []).flatten = 1 :: List.replicate 15 0 ++ leBytes 8 1 ++ leBytes 8 0 := by
  have hframing := mac_framing [1] [] (by decide) (by decide)
  refine ⟨fun h => ?_, hframing.2.1.trans (by decide)⟩
  have heq := (hframing.2.2.2.2.2 [1, 0] [] (by decide) (by decide) h).1
  exact absurd heq (by decide)

end ND.Proof.Aead
