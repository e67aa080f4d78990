import NanoDtls.Proof.Aead
import NanoDtls.Proof.MacData
import NanoDtls.Spec.ChaCha20
import Mathlib.Data.List.GetD
import Mathlib.Data.List.FinRange
import Mathlib.Tactic.FinCases

/-!
# ChaCha20 and the AEAD are RFC 8439's

The code keeps the state in an array and rounds it in place, four words at a
time. Read as a square (`square`) it goes through a column round and a
diagonal round (`square_columns`, `square_diagonals`), so that a block is
the RFC's (`chacha20Block_eq`). The loop over the data is the exclusive or with the
keystream by position, for every length (`chacha20Xor_eq`).
-/

namespace ND.Proof.ChaCha20

open ND.Impl ND.Impl.ChaCha20 ND.Impl.Aead
open ND.Spec.ChaCha20 (Square quarterRound ofEntries columnRound diagonalRound innerBlock)

/-! ## Quarter rounds in an array -/

section Places

variable {x : List Word}

theorem ofEntries_eq {α β : Type} (f : α → α → α → α → β) (v : Fin 4 → α) : ofEntries f v = f (v 0) (v 1) (v 2) (v 3) := rfl

/-- The quarter round of the words at the places `p`. -/
def roundAt (x : List Word) (p : Fin 4 → Nat) : Fin 4 → Word := ofEntries quarterRound fun k => x.getD (p k) 0

theorem QR_eq (x : List Word) (p : Fin 4 → Nat) : ofEntries (QR x) p =
    (((x.set (p 0) (roundAt x p 0)).set (p 1) (roundAt x p 1)).set (p 2) (roundAt x p 2)).set (p 3) (roundAt x p 3) := rfl

@[simp] theorem length_QR (x : List Word) (p : Fin 4 → Nat) : (ofEntries (QR x) p).length = x.length := by
  simp only [QR_eq, List.length_set]

theorem getD_set_self {k : Nat} (hk : k < x.length) (v : Word) : (x.set k v).getD k 0 = v := by
  rw [List.getD_eq_getElem _ _ (by rwa [List.length_set]), List.getElem_set_self]

theorem getD_set_ne {k l : Nat} (h : k ≠ l) (v : Word) : (x.set k v).getD l 0 = x.getD l 0 := by
  rw [List.getD_eq_getElem?_getD, List.getElem?_set_ne h, List.getD_eq_getElem?_getD]

/-- The other places keep their words. -/
theorem getD_QR_ne {p : Fin 4 → Nat} {l : Nat} (h : ∀ k, p k ≠ l) : (ofEntries (QR x) p).getD l 0 = x.getD l 0 := by
  rw [QR_eq, getD_set_ne (h 3), getD_set_ne (h 2), getD_set_ne (h 1), getD_set_ne (h 0)]

theorem getD_QR {p : Fin 4 → Nat} (hp : Function.Injective p) (hlt : ∀ k, p k < x.length) (i : Fin 4) :
    (ofEntries (QR x) p).getD (p i) 0 = roundAt x p i := by
  have hne {k l : Fin 4} (h : k ≠ l) : p k ≠ p l := hp.ne h
  rw [QR_eq]
  match i with
  | 0 => rw [getD_set_ne (hne (by decide)), getD_set_ne (hne (by decide)), getD_set_ne (hne (by decide)), getD_set_self (hlt 0)]
  | 1 => rw [getD_set_ne (hne (by decide)), getD_set_ne (hne (by decide)), getD_set_self (by simpa using hlt 1)]
  | 2 => rw [getD_set_ne (hne (by decide)), getD_set_self (by simpa using hlt 2)]
  | 3 => rw [getD_set_self (by simpa using hlt 3)]

/-- Quarter rounds one after the other, the `j`th at the places `P j`. -/
def rounds (P : Fin 4 → Fin 4 → Nat) (js : List (Fin 4)) (x : List Word) : List Word :=
  js.foldl (fun x j => ofEntries (QR x) (P j)) x

@[simp] theorem length_rounds (P : Fin 4 → Fin 4 → Nat) (js : List (Fin 4)) (x : List Word) : (rounds P js x).length = x.length := by
  induction js generalizing x with
  | nil => rfl
  | cons j js ih => exact (ih _).trans (length_QR ..)

variable {P : Fin 4 → Fin 4 → Nat}

theorem getD_rounds_of_notMem (hP : ∀ {j j' k k'}, P j k = P j' k' → j = j' ∧ k = k') (j i : Fin 4) :
    ∀ (js : List (Fin 4)) (x : List Word), j ∉ js → (rounds P js x).getD (P j i) 0 = x.getD (P j i) 0
  | [], _, _ => rfl
  | j' :: js, x, hj => by
    rw [List.mem_cons, not_or] at hj
    exact (getD_rounds_of_notMem hP j i js _ hj.2).trans (getD_QR_ne fun k h => hj.1 (hP h).1.symm)

/-- No quarter round sees what another one writes. -/
theorem getD_rounds (hP : ∀ {j j' k k'}, P j k = P j' k' → j = j' ∧ k = k') (j i : Fin 4) :
    ∀ (js : List (Fin 4)) (x : List Word), (∀ j k, P j k < x.length) → js.Nodup → j ∈ js →
      (rounds P js x).getD (P j i) 0 = roundAt x (P j) i
  | j' :: js, x, hlt, hnodup, hj => by
    rw [List.nodup_cons] at hnodup
    have hstep : rounds P (j' :: js) x = rounds P js (ofEntries (QR x) (P j')) := rfl
    rw [hstep]
    rcases List.mem_cons.mp hj with rfl | hj
    · rw [getD_rounds_of_notMem hP j i js _ hnodup.1, getD_QR (fun k k' h => (hP h).2) (hlt j)]
    · rw [getD_rounds hP j i js _ (by simpa using hlt) hnodup.2 hj]
      refine congrFun (congrArg (ofEntries quarterRound) (funext fun k => getD_QR_ne fun k' h => ?_)) i
      exact hnodup.1 ((hP h).1 ▸ hj)

end Places

/-! ## The rounds -/

/-- An array of 16 words, in rows of four. -/
def square (x : List Word) : Square := fun i j => x.getD (4 * i + j) 0

/-- Where the words of column `j` are. -/
def column (j i : Fin 4) : Nat := 4 * i + j

/-- Where the words of diagonal `j` are. -/
def diagonal (j i : Fin 4) : Nat := 4 * i + (j + i : Fin 4)

theorem doubleRound_eq (x : List Word) : doubleRound x = rounds diagonal [0, 1, 2, 3] (rounds column [0, 1, 2, 3] x) := by
  simp only [doubleRound, rounds, List.foldl_cons, List.foldl_nil, ofEntries_eq]
  rfl

theorem column_inj {j j' k k' : Fin 4} (h : column j k = column j' k') : j = j' ∧ k = k' := by
  rw [column, column] at h
  omega

theorem diagonal_inj {j j' k k' : Fin 4} (h : diagonal j k = diagonal j' k') : j = j' ∧ k = k' := by
  obtain ⟨hsum, rfl⟩ := column_inj h
  exact ⟨add_right_cancel hsum, rfl⟩

theorem column_lt (j i : Fin 4) : column j i < 16 := by
  rw [column]
  omega

theorem mem_all (j : Fin 4) : j ∈ [0, 1, 2, 3] := by
  revert j
  decide

variable {x : List Word}

theorem square_columns (hx : x.length = 16) : square (rounds column [0, 1, 2, 3] x) = columnRound (square x) := by
  funext i j
  exact getD_rounds column_inj j i _ x (fun j k => (column_lt j k).trans_eq hx.symm) (by decide) (mem_all j)

theorem square_diagonals (hx : x.length = 16) : square (rounds diagonal [0, 1, 2, 3] x) = diagonalRound (square x) := by
  funext i j
  have h := getD_rounds diagonal_inj (j - i) i _ x (fun j k => (column_lt (j + k) k).trans_eq hx.symm) (by decide)
    (mem_all (j - i))
  rwa [diagonal, sub_add_cancel] at h

@[simp] theorem length_doubleRound (x : List Word) : (doubleRound x).length = x.length := by
  rw [doubleRound_eq, length_rounds, length_rounds]

theorem square_doubleRound (hx : x.length = 16) : square (doubleRound x) = innerBlock (square x) := by
  rw [doubleRound_eq, square_diagonals (by rw [length_rounds, hx]), square_columns hx, innerBlock]

theorem square_iterate : ∀ (n : Nat) {x : List Word}, x.length = 16 → square (doubleRound^[n] x) = innerBlock^[n] (square x)
  | 0, _, _ => rfl
  | n + 1, x, hx => by
    rw [Function.iterate_succ_apply, Function.iterate_succ_apply, square_iterate n (by rw [length_doubleRound, hx]),
      square_doubleRound hx]

/-! ## The blocks -/

theorem square_initState (key : BytesN 32) (nonce : BytesN 12) (counter : Word) :
    square (initState key nonce counter) = Spec.ChaCha20.initial key nonce counter := by
  funext i j
  fin_cases i <;> fin_cases j <;> rfl

theorem flatMap_range (f : Nat → Bytes) :
    (List.range 16).flatMap f = (List.finRange 4).flatMap fun i : Fin 4 => (List.finRange 4).flatMap fun j : Fin 4 => f (4 * i + j) := by
  have hall : List.finRange 4 = [0, 1, 2, 3] := by decide
  have hrange : List.range 16 = [0, 1, 2, 3, 4, 5, 6, 7, 8, 9, 10, 11, 12, 13, 14, 15] := by decide
  simp only [hall, hrange, List.flatMap_cons, List.flatMap_nil, List.append_nil, List.append_assoc]
  rfl

theorem chacha20Block_eq (key : BytesN 32) (nonce : BytesN 12) (counter : Word) :
    chacha20Block key nonce counter = Spec.ChaCha20.block key nonce counter := by
  rw [chacha20Block, Spec.ChaCha20.block, Spec.ChaCha20.serialize]
  rw [List.foldl_const, List.length_range, flatMap_range, ← square_initState, ← square_iterate 10 rfl]
  rfl

/-! ## The keystream -/

open ND.Spec.ChaCha20 (keystream)

/-- One block later, 64 bytes earlier. -/
theorem keystream_add_one (key : BytesN 32) (nonce : BytesN 12) (counter : Word) (i : Nat) :
    keystream key nonce (counter + 1) i = keystream key nonce counter (i + 64) := by
  have hcounter : counter + 1 + BitVec.ofNat 32 (i / 64) = counter + BitVec.ofNat 32 ((i + 64) / 64) := by
    rw [Nat.add_div_right _ (by decide), BitVec.ofNat_add, BitVec.add_assoc, BitVec.add_comm 1]
    rfl
  rw [keystream, keystream, hcounter, Nat.add_mod_right]

/-- The first bytes, from one block. -/
theorem keystream_of_lt (key : BytesN 32) (nonce : BytesN 12) (counter : Word) {i : Nat} (hi : i < 64) :
    (chacha20Block key nonce counter)[i]? = some (keystream key nonce counter i) := by
  have hlt : i < (Spec.ChaCha20.block key nonce counter).length := by rwa [Spec.ChaCha20.length_block]
  rw [chacha20Block_eq, keystream, Nat.div_eq_of_lt hi, Nat.mod_eq_of_lt hi, BitVec.ofNat_eq_ofNat, BitVec.add_zero,
    List.getD_eq_getElem _ _ hlt, List.getElem?_eq_getElem hlt]

/-- The loop, by position: what a turn leaves for the next ones is 64 bytes further on. -/
theorem getElem?_xorLoop (key : BytesN 32) (nonce : BytesN 12) :
    ∀ (fuel : Nat) (counter : Word) (data : Bytes), data.length ≤ fuel → ∀ i,
      (xorLoop key nonce fuel counter data)[i]? = data[i]?.map (· ^^^ keystream key nonce counter i)
  | 0, _, data, h, i => by
    rw [List.length_eq_zero_iff.mp (Nat.le_zero.mp h)]
    rfl
  | fuel + 1, counter, data, h, i => by
    rw [xorLoop]
    by_cases h0 : data.length = 0
    · rw [if_pos h0, List.length_eq_zero_iff.mp h0]
      rfl
    rw [if_neg h0]
    have hlen : (List.zipWith (· ^^^ ·) (data.take 64) (chacha20Block key nonce counter)).length = min 64 data.length := by
      rw [List.length_zipWith, List.length_take, length_chacha20Block, Nat.min_comm, ← Nat.min_assoc, Nat.min_self]
    rcases Nat.lt_or_ge i 64 with hi | hi
    · rcases Nat.lt_or_ge i data.length with hd | hd
      · rw [List.getElem?_append_left (by rw [hlen]; omega), List.getElem?_zipWith, keystream_of_lt _ _ _ hi,
          List.getElem?_take_of_lt hi, List.getElem?_eq_getElem hd]
        rfl
      · have hout : (xorLoop key nonce fuel (counter + 1) (data.drop 64)).length = 0 := by
          rw [Aead.length_xorLoop key nonce fuel _ _ (by rw [List.length_drop]; omega), List.length_drop]
          omega
        rw [List.getElem?_eq_none (by rw [List.length_append, hlen, hout]; omega), List.getElem?_eq_none hd]
        rfl
    · obtain ⟨k, rfl⟩ := Nat.exists_eq_add_of_le' hi
      rcases Nat.lt_or_ge data.length 64 with hd | hd
      · rw [List.drop_eq_nil_of_le (by omega), show xorLoop key nonce fuel (counter + 1) [] = [] by cases fuel <;> rfl,
          List.append_nil, List.getElem?_eq_none (by rw [hlen]; omega), List.getElem?_eq_none (by omega)]
        rfl
      · rw [List.getElem?_append_right (by rw [hlen]; omega), hlen, Nat.min_eq_left hd, Nat.add_sub_cancel,
          getElem?_xorLoop key nonce fuel (counter + 1) (data.drop 64) (by rw [List.length_drop]; omega), List.getElem?_drop,
          keystream_add_one, Nat.add_comm 64]

theorem chacha20Xor_eq (key : BytesN 32) (nonce : BytesN 12) (counter : Word) (data : Bytes) :
    chacha20Xor key nonce counter data = Spec.ChaCha20.encrypt key nonce counter data := by
  refine List.ext_getElem? fun i => ?_
  rw [chacha20Xor, getElem?_xorLoop key nonce _ _ _ (Nat.le_refl _), Spec.ChaCha20.encrypt, List.getElem?_mapIdx]

/-! ## The AEAD -/

theorem deriveOtk_eq (key : BytesN 32) (nonce : BytesN 12) : deriveOtk key nonce = Spec.Aead.oneTimeKey key nonce :=
  Subtype.ext (congrArg (List.take 32) (chacha20Block_eq key nonce 0))

theorem aeadTag_eq (key : BytesN 32) (nonce : BytesN 12) (aad ciphertext : Bytes) :
    aeadTag key nonce aad ciphertext = Spec.Aead.tag key nonce aad ciphertext := by
  rw [aeadTag, Aead.final_macAadAndCiphertext, deriveOtk_eq, Spec.Aead.tag]

/-- For all keys, nonces, data and texts of any length: `nd_aead_chacha20poly1305_encrypt` is the encryption of RFC 8439, and
`nd_aead_chacha20poly1305_decrypt` is its decryption, with `ND_ERR_AUTH_FAILED` where the RFC returns nothing. -/
theorem aead_correct (key : BytesN 32) (nonce : BytesN 12) (aad : Bytes) :
    (∀ plaintext, aeadChacha20Poly1305Encrypt key nonce aad plaintext = Spec.Aead.encrypt key nonce aad plaintext) ∧
    ∀ ciphertext tag, aeadChacha20Poly1305Decrypt key nonce aad ciphertext tag =
      (Spec.Aead.decrypt key nonce aad ciphertext tag).elim (.error .authFailed) .ok := by
  refine ⟨fun plaintext => ?_, fun ciphertext tag => ?_⟩
  · rw [aeadChacha20Poly1305Encrypt, Spec.Aead.encrypt, chacha20Xor_eq, aeadTag_eq]
  · rw [Aead.decrypt_eq, Spec.Aead.decrypt, aeadTag_eq, chacha20Xor_eq]
    by_cases h : Spec.Aead.tag key nonce aad ciphertext = tag
    · rw [if_pos h, if_pos h, Option.elim_some]
    · rw [if_neg h, if_neg h, Option.elim_none]

end ND.Proof.ChaCha20
