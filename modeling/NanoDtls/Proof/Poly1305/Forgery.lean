import NanoDtls.Framework.PolyHash
import NanoDtls.Framework.Primality
import NanoDtls.Proof.MacData
import Mathlib.Algebra.Field.ZMod

/-!
# Forging a tag

What one tag under a one-time key says about another. The tag of some data
leaves `2^106` keys, one for each clamped `r` (`card_consistent`); of these a
given tag of other data fits for a few only, at most eight for each block of
16 bytes (`forgery_bound`): the polynomials of the two strings differ by one
of eight constants, since the pad cancels.
-/

namespace ND.Proof.Poly1305

open ND.Impl ND.Impl.Poly1305 ND.Impl.Aead
open Spec.Poly1305 (p coefficient clampMask)
open Spec.Aead (macData)

/-! ## The field -/

def primeCertificates : List Certificate :=
  [⟨3134801, 3, [2, 2, 2, 2, 5, 5, 17, 461]⟩,
   ⟨37003, 2, [2, 3, 7, 881]⟩,
   ⟨221101, 22, [2, 2, 3, 5, 5, 11, 67]⟩,
   ⟨4889, 3, [2, 2, 2, 13, 47]⟩,
   ⟨4024685905107147541, 2, [2, 2, 3, 3, 5, 13, 43, 4889, 37003, 221101]⟩,
   ⟨897064739519922787230182993783, 5, [2, 73, 487, 3134801, 4024685905107147541]⟩,
   ⟨19403, 2, [2, 89, 109]⟩,
   ⟨32985101, 2, [2, 2, 5, 5, 17, 19403]⟩,
   ⟨1361129467683753853853498429727072845819, 2, [2, 23, 32985101, 897064739519922787230182993783]⟩]

theorem prime_p : p.Prime := certified_prime primeCertificates (by decide +kernel) (by decide +kernel)

instance : Fact p.Prime := ⟨prime_p⟩

abbrev F1305 := ZMod p

theorem natCast_inj {a b : Nat} (ha : a < p) (hb : b < p) : (a : F1305) = b ↔ a = b := by
  rw [ZMod.natCast_eq_natCast_iff', Nat.mod_eq_of_lt ha, Nat.mod_eq_of_lt hb]

/-- The coefficients of some chunks, in the field. -/
def coefficients (bs : List Bytes) : List F1305 := bs.map fun b => (coefficient b : F1305)

theorem eval_cons (r : Nat) (b : Bytes) (bs : List Bytes) :
    Spec.Poly1305.eval r (b :: bs) = coefficient b * r ^ (bs.length + 1) + Spec.Poly1305.eval r bs := by
  rw [Spec.Poly1305.eval, List.length_cons, Finset.sum_range_succ', Nat.add_comm, Spec.Poly1305.eval]
  refine congrArg _ (Finset.sum_congr rfl fun i _ => ?_)
  rw [Nat.add_sub_add_right, List.getD_cons_succ]

theorem natCast_eval (r : Nat) (bs : List Bytes) :
    ((Spec.Poly1305.eval r bs : Nat) : F1305) = (hashPoly (coefficients bs)).eval (r : F1305) := by
  induction bs with
  | nil => exact Nat.cast_zero.trans Polynomial.eval_zero.symm
  | cons b bs ih =>
    have hpoly : hashPoly (coefficients (b :: bs)) = Polynomial.C (coefficient b : F1305) * Polynomial.X ^ (bs.length + 1) +
        hashPoly (coefficients bs) := by
      rw [coefficients, List.map_cons, hashPoly, List.length_map, coefficients]
    rw [eval_cons, Nat.cast_add, ih, hpoly, Polynomial.eval_add, Polynomial.eval_C_mul, Polynomial.eval_pow,
      Polynomial.eval_X, Nat.cast_mul, Nat.cast_pow]

theorem coefficient_lt {b : Bytes} (hb : b.length = 16) : coefficient b < p := by
  have hlt := leNat_lt b
  rw [coefficient, hb]
  rw [hb] at hlt
  exact (Nat.add_lt_add_right hlt _).trans (by decide)

theorem coefficient_inj {b c : Bytes} (hb : b.length = 16) (hc : c.length = 16) (h : (coefficient b : F1305) = coefficient c) :
    b = c := by
  rw [natCast_inj (coefficient_lt hb) (coefficient_lt hc), coefficient, coefficient, hb, hc, Nat.add_right_cancel_iff] at h
  rw [← leBytes_leNat b, ← leBytes_leNat c, hb, hc, h]

theorem coefficients_ne_zero {bs : List Bytes} (hbs : ∀ b ∈ bs, b.length = 16) : ∀ c ∈ coefficients bs, c ≠ 0 := by
  rw [coefficients, List.forall_mem_map]
  intro b hb h
  rw [← Nat.cast_zero, natCast_inj (coefficient_lt (hbs b hb)) (by decide), coefficient, Nat.add_eq_zero_iff] at h
  exact absurd h.2 (Nat.two_pow_pos _).ne'

theorem coefficients_inj : ∀ {bs cs : List Bytes}, (∀ b ∈ bs, b.length = 16) → (∀ c ∈ cs, c.length = 16) →
    coefficients bs = coefficients cs → bs = cs
  | [], [], _, _, _ => rfl
  | b :: bs, c :: cs, hbs, hcs, h => by
    obtain ⟨hhead, htail⟩ := List.cons.inj h
    rw [List.forall_mem_cons] at hbs hcs
    rw [coefficient_inj hbs.1 hcs.1 hhead, coefficients_inj hbs.2 hcs.2 htail]

/-! ## The offsets -/

/-- What the difference of two polynomials can be, if the tags are `t` and `t'`: a number between `-p` and `p`, known
modulo `2^128`. -/
def offsets (t t' : Nat) : Finset F1305 :=
  (Finset.range 8).image fun (m : Nat) => ((((t : Int) - t') % 2 ^ 128 + ((m : Int) - 4) * 2 ^ 128 : Int) : F1305)

theorem card_offsets_le (t t' : Nat) : (offsets t t').card ≤ 8 := Finset.card_image_le.trans_eq (Finset.card_range 8)

theorem sub_mem_offsets {e e' s t t' : Nat} (h : (e % p + s) % 2 ^ 128 = t) (h' : (e' % p + s) % 2 ^ 128 = t') :
    (e : F1305) - e' ∈ offsets t t' := by
  have hlt : e % p < 2 ^ 130 - 5 := Nat.mod_lt _ (by decide)
  have hlt' : e' % p < 2 ^ 130 - 5 := Nat.mod_lt _ (by decide)
  have hcast : (e : F1305) - e' = (((e % p : Nat) : Int) - (e' % p : Nat) : Int) := by
    rw [Int.cast_sub, Int.cast_natCast, Int.cast_natCast, ZMod.natCast_mod, ZMod.natCast_mod]
  rw [hcast]
  generalize e % p = a at *
  generalize e' % p = a' at *
  refine Finset.mem_image.mpr ⟨(((a : Int) - a' - ((t : Int) - t') % 2 ^ 128) / 2 ^ 128 + 4).toNat, ?_, congrArg _ ?_⟩
  · rw [Finset.mem_range]
    omega
  · omega

/-! ## The keys -/

/-- The tag of the AEAD under a one-time key. -/
def tagUnder (otk : BytesN 32) (aad ciphertext : Bytes) : BytesN 16 :=
  poly1305Final (macAadAndCiphertext (poly1305Init otk) aad ciphertext)

/-- `clamp_r` has nothing to clear. -/
def Clamped (otk : BytesN 32) : Prop := clampR (otk.1.take 16) = otk.1.take 16

/-- The blocks that are authenticated: those of the additional data, those of the ciphertext and the lengths. -/
def blockCount (aad ciphertext : Bytes) : Nat := (aad.length + 15) / 16 + (ciphertext.length + 15) / 16 + 1

theorem leBytes_leNat_16 {b : Bytes} (hb : b.length = 16) : leBytes 16 (leNat b) = b := by rw [← hb, leBytes_leNat]

theorem leBytes_eq_iff {b : Bytes} (hb : b.length = 16) {v : Nat} : leBytes 16 v = b ↔ v % 2 ^ 128 = leNat b := by
  constructor
  · rintro rfl
    exact (leNat_leBytes 16 v).symm
  · intro h
    rw [← leBytes_leNat_16 (length_leBytes 16 v), leNat_leBytes, ← leBytes_leNat_16 hb, ← h]
    rfl

/-- The tag, as an equation for the second half of the key. -/
theorem tagUnder_eq_iff {otk : BytesN 32} {aad ciphertext : Bytes} {tag : BytesN 16} : tagUnder otk aad ciphertext = tag ↔
    (Spec.Poly1305.eval (Spec.Poly1305.r otk) (chunks 16 (macData aad ciphertext)) % p + Spec.Poly1305.s otk) % 2 ^ 128 =
      leNat tag.1 := by
  rw [tagUnder, Aead.final_macAadAndCiphertext, Subtype.ext_iff, Spec.Poly1305.mac, leBytes_eq_iff tag.2, Nat.mod_mod]

/-- The key with these halves. -/
def keyOf (r s : Nat) : BytesN 32 := ⟨leBytes 16 r ++ leBytes 16 s, by simp⟩

theorem take_keyOf (r s : Nat) : (keyOf r s).1.take 16 = leBytes 16 r := List.take_left' (length_leBytes 16 r)

theorem drop_keyOf (r s : Nat) : (keyOf r s).1.drop 16 = leBytes 16 s := List.drop_left' (length_leBytes 16 r)

theorem keyOf_leNat (otk : BytesN 32) : keyOf (leNat (otk.1.take 16)) (leNat (otk.1.drop 16)) = otk := by
  have htake : (otk.1.take 16).length = 16 := by rw [List.length_take, otk.2]; rfl
  have hdrop : (otk.1.drop 16).length = 16 := by rw [List.length_drop, otk.2]
  apply Subtype.ext
  calc leBytes 16 (leNat (otk.1.take 16)) ++ leBytes 16 (leNat (otk.1.drop 16))
      = otk.1.take 16 ++ otk.1.drop 16 := congrArg₂ _ (leBytes_leNat_16 htake) (leBytes_leNat_16 hdrop)
    _ = otk.1 := List.take_append_drop 16 otk.1

theorem clamped_iff {otk : BytesN 32} : Clamped otk ↔ leNat (otk.1.take 16) ∈ submasks 128 clampMask := by
  have htake : (otk.1.take 16).length = 16 := by rw [List.length_take, otk.2]; rfl
  have hclamp : (clampR (otk.1.take 16)).length = 16 := by rw [clampR, List.length_mapIdx, htake]
  rw [mem_submasks (by decide), ← leNat_clampR htake, Clamped]
  refine ⟨congrArg leNat, fun h => ?_⟩
  rw [← leBytes_leNat_16 hclamp, h, leBytes_leNat_16 htake]

variable {r s : Nat}

theorem submask_lt (hr : r ∈ submasks 128 clampMask) : r < 2 ^ 128 := by
  rw [mem_submasks (by decide)] at hr
  rw [← hr]
  exact Nat.and_lt_two_pow _ (by decide)

theorem leNat_take_keyOf (hr : r ∈ submasks 128 clampMask) : leNat ((keyOf r s).1.take 16) = r := by
  rw [take_keyOf, leNat_leBytes]
  exact Nat.mod_eq_of_lt (submask_lt hr)

theorem r_keyOf (hr : r ∈ submasks 128 clampMask) : Spec.Poly1305.r (keyOf r s) = r := by
  rw [Spec.Poly1305.r, leNat_take_keyOf hr]
  exact (mem_submasks (by decide)).mp hr

theorem s_keyOf : Spec.Poly1305.s (keyOf r s) = s % 2 ^ 128 := by
  rw [Spec.Poly1305.s, drop_keyOf, leNat_leBytes]
  rfl

/-- The second half that goes with `r`: the tag less the polynomial. -/
def padOf (aad ciphertext : Bytes) (tag : BytesN 16) (r : Nat) : Nat :=
  (leNat tag.1 + (2 ^ 128 - Spec.Poly1305.eval r (chunks 16 (macData aad ciphertext)) % p % 2 ^ 128)) % 2 ^ 128

theorem tagUnder_keyOf {aad ciphertext : Bytes} {tag : BytesN 16} (hr : r ∈ submasks 128 clampMask) (hs : s < 2 ^ 128) :
    tagUnder (keyOf r s) aad ciphertext = tag ↔ s = padOf aad ciphertext tag r := by
  have htag : leNat tag.1 < 2 ^ 128 := (leNat_lt tag.1).trans_eq (by rw [tag.2]; rfl)
  rw [tagUnder_eq_iff, r_keyOf hr, s_keyOf, padOf]
  omega

/-- The clamped keys under which the data have the tag. -/
def consistent (aad ciphertext : Bytes) (tag : BytesN 16) : Finset (BytesN 32) :=
  (submasks 128 clampMask).image fun r => keyOf r (padOf aad ciphertext tag r)

theorem padOf_lt (aad ciphertext : Bytes) (tag : BytesN 16) (r : Nat) : padOf aad ciphertext tag r < 2 ^ 128 :=
  Nat.mod_lt _ (by decide)

theorem mem_consistent {aad ciphertext : Bytes} {tag : BytesN 16} {otk : BytesN 32} :
    otk ∈ consistent aad ciphertext tag ↔ Clamped otk ∧ tagUnder otk aad ciphertext = tag := by
  rw [consistent, Finset.mem_image]
  constructor
  · rintro ⟨r, hr, rfl⟩
    exact ⟨clamped_iff.mpr (by rwa [leNat_take_keyOf hr]), (tagUnder_keyOf hr (padOf_lt _ _ _ _)).mpr rfl⟩
  · rintro ⟨hclamped, htag⟩
    rw [clamped_iff] at hclamped
    have hs : leNat (otk.1.drop 16) < 2 ^ 128 := (leNat_lt _).trans_eq (by rw [List.length_drop, otk.2]; rfl)
    rw [← keyOf_leNat otk, tagUnder_keyOf hclamped hs] at htag
    exact ⟨_, hclamped, by rw [← htag, keyOf_leNat]⟩

theorem card_consistent (aad ciphertext : Bytes) (tag : BytesN 16) : (consistent aad ciphertext tag).card = 2 ^ 106 := by
  rw [consistent, Finset.card_image_of_injOn, card_submasks]
  · have hbits : ((Finset.range 128).filter fun i => clampMask.testBit i).card = 106 := by decide +kernel
    rw [hbits]
  · intro r hr r' hr' h
    rw [← leNat_take_keyOf hr, ← leNat_take_keyOf hr', congrArg (fun k : BytesN 32 => leNat (k.1.take 16)) h]

/-! ## Forgeries -/

theorem blocks_macData (aad ciphertext : Bytes) : (chunks 16 (macData aad ciphertext)).flatten = macData aad ciphertext ∧
    (∀ b ∈ chunks 16 (macData aad ciphertext), b.length = 16) ∧
    (chunks 16 (macData aad ciphertext)).length = blockCount aad ciphertext := by
  obtain ⟨hflatten, hblocks, hlen⟩ := chunks_whole (show 0 < 16 by decide) (Aead.length_macData aad ciphertext)
  refine ⟨hflatten, hblocks, hlen.trans ?_⟩
  have hpad (x : Bytes) : x.length + (Spec.Aead.pad16 x).length = 16 * ((x.length + 15) / 16) := by
    rw [Spec.Aead.pad16]
    split
    next h0 => rw [List.length_nil]; omega
    next h0 => rw [List.length_replicate]; omega
  have haad := hpad aad
  have hct := hpad ciphertext
  simp only [macData, List.length_append, length_leBytes, blockCount]
  omega

/-- For all additional data and ciphertexts, and other ones, with any tags: `2^106` clamped one-time keys give the first the
first tag, and at most eight of them for each block give the others the second. -/
theorem forgery_bound {aad ciphertext aad' ciphertext' : Bytes} (haad : aad.length < 2 ^ 64)
    (hciphertext : ciphertext.length < 2 ^ 64) (haad' : aad'.length < 2 ^ 64) (hciphertext' : ciphertext'.length < 2 ^ 64)
    (hne : (aad', ciphertext') ≠ (aad, ciphertext)) (tag tag' : BytesN 16) :
    ∃ keys : Finset (BytesN 32), (∀ otk, otk ∈ keys ↔ Clamped otk ∧ tagUnder otk aad ciphertext = tag) ∧ keys.card = 2 ^ 106 ∧
      (keys.filter fun otk => tagUnder otk aad' ciphertext' = tag').card ≤
        8 * max (blockCount aad ciphertext) (blockCount aad' ciphertext') := by
  refine ⟨consistent aad ciphertext tag, fun _ => mem_consistent, card_consistent aad ciphertext tag, ?_⟩
  obtain ⟨hflatten, hblocks, hcount⟩ := blocks_macData aad ciphertext
  obtain ⟨hflatten', hblocks', hcount'⟩ := blocks_macData aad' ciphertext'
  -- the polynomials differ
  have hpoly : coefficients (chunks 16 (macData aad ciphertext)) ≠ coefficients (chunks 16 (macData aad' ciphertext')) := by
    intro h
    have hdata := congrArg List.flatten (coefficients_inj hblocks hblocks' h)
    rw [hflatten, hflatten'] at hdata
    obtain ⟨rfl, rfl⟩ := Aead.macData_inj haad hciphertext haad' hciphertext' hdata
    exact hne rfl
  -- the keys differ in `r`
  have hinj : Set.InjOn (fun otk => (Spec.Poly1305.r otk : F1305)) (consistent aad ciphertext tag) := by
    intro k hk k' hk' h
    obtain ⟨r, hr, rfl⟩ := Finset.mem_image.mp hk
    obtain ⟨r', hr', rfl⟩ := Finset.mem_image.mp hk'
    dsimp only at h
    rw [r_keyOf hr, r_keyOf hr', natCast_inj ((submask_lt hr).trans (by decide)) ((submask_lt hr').trans (by decide))] at h
    rw [h]
  rw [← Finset.card_image_of_injOn (hinj.mono (Finset.coe_subset.mpr (Finset.filter_subset _ _)))]
  -- and each is a root for one of the offsets
  have hroot : ∀ r ∈ ((consistent aad ciphertext tag).filter fun otk => tagUnder otk aad' ciphertext' = tag').image
      fun otk => (Spec.Poly1305.r otk : F1305),
      (hashPoly (coefficients (chunks 16 (macData aad ciphertext)))).eval r -
        (hashPoly (coefficients (chunks 16 (macData aad' ciphertext')))).eval r ∈ offsets (leNat tag.1) (leNat tag'.1) := by
    intro r hr
    obtain ⟨otk, hotk, rfl⟩ := Finset.mem_image.mp hr
    obtain ⟨hmem, htag'⟩ := Finset.mem_filter.mp hotk
    rw [← natCast_eval, ← natCast_eval]
    exact sub_mem_offsets (tagUnder_eq_iff.mp (mem_consistent.mp hmem).2) (tagUnder_eq_iff.mp htag')
  refine (card_le_of_eval_sub_mem (coefficients_ne_zero hblocks) (coefficients_ne_zero hblocks') hpoly hroot).trans ?_
  rw [coefficients, coefficients, List.length_map, List.length_map, hcount, hcount', Nat.mul_comm]
  exact Nat.mul_le_mul_right _ (card_offsets_le _ _)

/-- Of the keys that give no data the tag of zeros, at most 16 give it to a ciphertext of one byte. -/
theorem forgery_bound_byte : ∃ keys : Finset (BytesN 32),
    (∀ otk, otk ∈ keys ↔ Clamped otk ∧ tagUnder otk [] [] = ⟨List.replicate 16 0, rfl⟩) ∧ keys.card = 2 ^ 106 ∧
      (keys.filter fun otk => tagUnder otk [] [7] = ⟨List.replicate 16 0, rfl⟩).card ≤ 16 :=
  forgery_bound (by decide) (by decide) (by decide) (by decide) (by decide) _ _

end ND.Proof.Poly1305
