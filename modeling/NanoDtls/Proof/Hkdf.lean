import NanoDtls.Proof.Sha256
import NanoDtls.Spec.Hkdf

/-!
# HKDF-Expand

`nd_hmac_sha256` is the HMAC of the specification (`hmacSha256_eq`), so the
turns of the loop of `nd_hkdf_expand` compute `T(1)`, `T(2)`, ... (`turns_eq`),
and the loop returns the first bytes of these (`expandLoop_turns`). A
`HkdfLabel` has the lengths of its fields in front of them, so it determines
them (`hkdfLabel_inj`).
-/

namespace ND.Proof.Hkdf

open ND.Impl Sha256
open Spec.Hkdf (T blocks blockCount expand)

/-! ## HMAC -/

theorem paddedKey_eq (key : Bytes) : keyBlock key = Spec.Hkdf.paddedKey key := by
  rw [keyBlock, Spec.Hkdf.paddedKey]
  by_cases h : 64 < key.length
  · have hlen : (Spec.Fips180.sha256 key).length = 32 := by rw [← Sha256.sha256_eq_long, BytesN.length_eq]
    simp only [if_pos h, if_neg (Nat.not_le.mpr h), hlen, Sha256.sha256_eq_long]
    rfl
  · simp only [if_neg h, if_pos (Nat.le_of_not_lt h)]

theorem sha256Final_update_update (a b : Bytes) :
    (sha256Final (sha256Update (sha256Update sha256Init a) b)).1.1 = Spec.Fips180.sha256 (a ++ b) := by
  rw [Sha256.sha256Update_append Sha256.ready_init, ← Sha256.sha256_eq_long]
  rfl

/-- `nd_hmac_sha256` is HMAC. -/
theorem hmacSha256_eq (key data : Bytes) : (hmacSha256 key data).1 = Spec.Hkdf.hmac key data := by
  simp only [hmacSha256, Spec.Hkdf.hmac, sha256Final_update_update, paddedKey_eq]

theorem length_T (prk info : Bytes) (i : Nat) : (T prk info (i + 1)).length = 32 := by
  rw [T, ← hmacSha256_eq, BytesN.length_eq]

/-! ## The loop -/

/-- The turns of the loop of `nd_hkdf_expand`: the counter and the block of each. -/
def turns (prk info : Bytes) : Nat → Bytes → Byte → Nat → List (Byte × Bytes)
  | 0, _, _, _ => []
  | fuel + 1, t, counter, need =>
    if need = 0 then []
    else
      let t := (hmacSha256 prk (t ++ info ++ [counter])).1
      (counter, t) :: turns prk info fuel t (counter + 1) (need - min need 32)

/-- The loop returns the first bytes of the blocks of its turns. -/
theorem expandLoop_turns (prk info : Bytes) : ∀ (fuel : Nat) (t : Bytes) (counter : Byte) (need : Nat), need ≤ 32 * fuel →
    expandLoop prk info fuel t counter need = ((turns prk info fuel t counter need).flatMap Prod.snd).take need
  | 0, _, _, need, h => by
    obtain rfl : need = 0 := by omega
    rfl
  | fuel + 1, t, counter, need, h => by
    rw [expandLoop, turns]
    split
    · rename_i h0
      rw [h0, List.take_zero]
    · simp only [List.flatMap_cons]
      generalize ht : hmacSha256 prk (t ++ info ++ [counter]) = block
      have htake : block.1.take (min need 32) = block.1.take need := by
        rw [show min need 32 = min need block.1.length by rw [BytesN.length_eq], ← List.take_eq_take_min]
      rw [expandLoop_turns prk info fuel _ _ _ (by omega), htake, List.take_append, BytesN.length_eq,
        show need - min need 32 = need - 32 by omega]

/-- One turn: the block that follows. -/
theorem hmac_turn (prk info : Bytes) (i : Nat) :
    (hmacSha256 prk (T prk info i ++ info ++ [BitVec.ofNat 8 (i + 1)])).1 = T prk info (i + 1) := by
  rw [hmacSha256_eq, T]
  simp [beBytes]

theorem blockCount_sub {need : Nat} (h : need ≠ 0) : blockCount need = blockCount (need - min need 32) + 1 := by
  simp only [blockCount]
  omega

/-- The turns from block `i` on compute the blocks of the specification. -/
theorem turns_eq (prk info : Bytes) : ∀ (fuel i need : Nat), need ≤ 32 * fuel →
    turns prk info fuel (T prk info i) (BitVec.ofNat 8 (i + 1)) need =
      (List.range (blockCount need)).map fun j => (BitVec.ofNat 8 (i + j + 1), T prk info (i + j + 1))
  | 0, _, need, h => by
    obtain rfl : need = 0 := by omega
    rfl
  | fuel + 1, i, need, h => by
    have hcounter : BitVec.ofNat 8 (i + 1) + 1 = BitVec.ofNat 8 (i + 1 + 1) := by
      rw [BitVec.ofNat_add (i + 1) 1]
      rfl
    rw [turns]
    split
    · rename_i h0
      rw [h0]
      rfl
    · rename_i h0
      simp only [hmac_turn, hcounter]
      rw [turns_eq prk info fuel (i + 1) _ (by omega), blockCount_sub h0, List.range_succ_eq_map, List.map_cons, List.map_map]
      congr 1
      apply List.map_congr_left
      intro j _
      simp only [Function.comp_apply, Nat.succ_eq_add_one, show i + (j + 1) + 1 = i + 1 + j + 1 by omega]

theorem turns_init (prk info : Bytes) {outLen : Nat} (h : outLen ≤ 8160) :
    turns prk info 255 [] 1 outLen = (List.range (blockCount outLen)).map fun i => (BitVec.ofNat 8 (i + 1), T prk info (i + 1)) := by
  have hturns := turns_eq prk info 255 0 outLen (by omega)
  simp only [Nat.zero_add] at hturns
  exact hturns

theorem length_blocks (prk info : Bytes) (n : Nat) : (blocks prk info n).length = 32 * n := by
  simp [blocks, List.length_flatMap, length_T, Nat.mul_comm]

theorem blocks_add (prk info : Bytes) (n m : Nat) : blocks prk info n <+: blocks prk info (n + m) := by
  rw [blocks, blocks, List.range_add, List.flatMap_append]
  exact List.prefix_append _ _

/-- The first bytes of the blocks, however many blocks there are. -/
theorem take_blocks (prk info : Bytes) {n len : Nat} (h : len ≤ 32 * n) : (blocks prk info n).take len = expand prk info len := by
  have hcount : blockCount len ≤ n := by
    rw [blockCount]
    omega
  obtain ⟨m, rfl⟩ := Nat.exists_eq_add_of_le hcount
  obtain ⟨rest, hrest⟩ := blocks_add prk info (blockCount len) m
  have hlen := length_blocks prk info (blockCount len)
  rw [expand, ← hrest, List.take_append_of_le_length (by rw [hlen, blockCount]; omega)]

/-- A shorter output is the start of a longer one. -/
theorem expand_prefix (prk info : Bytes) {len len' : Nat} (h : len ≤ len') : expand prk info len <+: expand prk info len' := by
  rw [← take_blocks prk info (n := blockCount len') (by rw [blockCount]; omega), expand]
  exact List.take_prefix_take_left h

/-- `nd_hkdf_expand` on the arguments that it accepts. -/
theorem hkdfExpand_eq (prk : Bytes) {info : Bytes} {outLen : Nat} (hinfo : info.length ≤ 200) (hout : outLen ≤ 8160) :
    ∃ out, hkdfExpand prk info outLen = .ok out ∧ out.1 = expand prk info outLen := by
  refine ⟨⟨expandLoop prk info 255 [] 1 outLen, length_expandLoop _ _ _ _ _ _ (by omega)⟩, ?_, ?_⟩
  · rw [hkdfExpand, dif_neg (by omega), if_neg (by omega)]
  · simp only [expandLoop_turns prk info 255 [] 1 outLen (by omega), turns_init prk info hout, List.flatMap_map, expand, blocks]

/-- The counters of its turns count the blocks, without wrapping around. -/
theorem counters_eq (prk info : Bytes) {outLen : Nat} (h : outLen ≤ 8160) :
    (turns prk info 255 [] 1 outLen).map (·.1.toNat) = (List.range (blockCount outLen)).map (· + 1) := by
  rw [turns_init prk info h, List.map_map]
  apply List.map_congr_left
  intro i hi
  rw [List.mem_range, blockCount] at hi
  rw [Function.comp_apply, BitVec.toNat_ofNat, Nat.mod_eq_of_lt (by omega)]

/-! ## Labels -/

theorem length_hkdfLabel (outLen : Nat) (label context : Bytes) :
    (hkdfLabel outLen label context).length = 4 + label.length + context.length := by
  simp only [hkdfLabel, List.length_append, length_beBytes]
  omega

/-- A `HkdfLabel` determines its fields, if the lengths fit. -/
theorem hkdfLabel_inj {len len' : Nat} {label label' context context' : Bytes} (hlen : len < 2 ^ 16) (hlen' : len' < 2 ^ 16)
    (hl : label.length < 256) (hl' : label'.length < 256) (h : hkdfLabel len label context = hkdfLabel len' label' context') :
    len = len' ∧ label = label' ∧ context = context' := by
  have hbytes : ∀ {k v v' : Nat}, v < 256 ^ k → v' < 256 ^ k → beBytes k v = beBytes k v' → v = v' := by
    intro k v v' hv hv' heq
    have hval := congrArg beNat heq
    rwa [beNat_beBytes, beNat_beBytes, Nat.mod_eq_of_lt hv, Nat.mod_eq_of_lt hv'] at hval
  simp only [hkdfLabel, List.append_assoc] at h
  obtain ⟨hfirst, h⟩ := List.append_inj h (by rw [length_beBytes, length_beBytes])
  obtain ⟨hsize, h⟩ := List.append_inj h (by rw [length_beBytes, length_beBytes])
  obtain ⟨hlabel, h⟩ := List.append_inj h (hbytes (k := 1) hl hl' hsize)
  obtain ⟨-, hcontext⟩ := List.append_inj h (by rw [length_beBytes, length_beBytes])
  exact ⟨hbytes (k := 2) hlen hlen' hfirst, hlabel, hcontext⟩

/-- The arguments that `nd_hkdf_expand_label` accepts. -/
def Accepted (labelPre label context : Bytes) (outLen : Nat) : Prop :=
  labelPre.length + label.length ≤ 64 ∧ context.length ≤ 64 ∧ outLen ≤ 8160

theorem hkdfExpandLabel_of_accepted (secret : Bytes) {labelPre label context : Bytes} {outLen : Nat}
    (h : Accepted labelPre label context outLen) : hkdfExpandLabel secret labelPre label context outLen =
      hkdfExpand secret (hkdfLabel outLen (labelPre ++ label) context) outLen := by
  obtain ⟨hlabel, hcontext, hout⟩ := h
  rw [hkdfExpandLabel, if_neg (by omega), if_neg (by omega)]

theorem hkdfExpandLabel_error (secret : Bytes) {labelPre label context : Bytes} {outLen : Nat}
    (h : ¬ Accepted labelPre label context outLen) : hkdfExpandLabel secret labelPre label context outLen = .error .badArg := by
  rw [hkdfExpandLabel]
  split
  · rfl
  · split
    · rfl
    · have hout : 255 * 32 < outLen := by
        rw [Accepted] at h
        omega
      rw [hkdfExpand, dif_pos hout]

/-- `nd_hkdf_expand` is HKDF-Expand of RFC 5869 within its bounds: the counters of its turns are the numbers of the blocks,
and a shorter output is the start of a longer one. `nd_hkdf_expand_label` succeeds exactly within its bounds, with the
output for its `HkdfLabel`; two calls that succeed have the same `HkdfLabel` only for the same arguments. -/
theorem hkdf_correct :
    (∀ (prk info : Bytes) (outLen : Nat), info.length ≤ 200 → outLen ≤ 8160 → ∃ out, hkdfExpand prk info outLen = .ok out ∧
      out.1 = expand prk info outLen ∧
      (turns prk info 255 [] 1 outLen).map (·.1.toNat) = (List.range (blockCount outLen)).map (· + 1) ∧
      ∀ shorter ≤ outLen, ∃ out', hkdfExpand prk info shorter = .ok out' ∧ out'.1 <+: out.1) ∧
    (∀ (secret labelPre label context : Bytes) (outLen : Nat),
      ((∃ out, hkdfExpandLabel secret labelPre label context outLen = .ok out) ↔ Accepted labelPre label context outLen) ∧
      (Accepted labelPre label context outLen → hkdfExpandLabel secret labelPre label context outLen =
        hkdfExpand secret (hkdfLabel outLen (labelPre ++ label) context) outLen)) ∧
    (∀ (labelPre label context labelPre' label' context' : Bytes) (outLen outLen' : Nat),
      Accepted labelPre label context outLen → Accepted labelPre' label' context' outLen' →
      hkdfLabel outLen (labelPre ++ label) context = hkdfLabel outLen' (labelPre' ++ label') context' →
      outLen = outLen' ∧ labelPre ++ label = labelPre' ++ label' ∧ context = context') := by
  refine ⟨?_, ?_, ?_⟩
  · intro prk info outLen hinfo hout
    obtain ⟨out, hok, heq⟩ := hkdfExpand_eq prk hinfo hout
    refine ⟨out, hok, heq, counters_eq prk info hout, ?_⟩
    intro shorter hle
    obtain ⟨out', hok', heq'⟩ := hkdfExpand_eq prk hinfo (hle.trans hout)
    refine ⟨out', hok', ?_⟩
    rw [heq, heq']
    exact expand_prefix prk info hle
  · intro secret labelPre label context outLen
    refine ⟨⟨?_, ?_⟩, hkdfExpandLabel_of_accepted secret⟩
    · rintro ⟨out, hok⟩
      by_contra h
      rw [hkdfExpandLabel_error secret h] at hok
      cases hok
    · intro h
      obtain ⟨hlabel, hcontext, hout⟩ := id h
      have hinfo : (hkdfLabel outLen (labelPre ++ label) context).length ≤ 200 := by
        rw [length_hkdfLabel, List.length_append]
        omega
      obtain ⟨out, hok, -⟩ := hkdfExpand_eq secret hinfo hout
      exact ⟨out, (hkdfExpandLabel_of_accepted secret h).trans hok⟩
  · intro labelPre label context labelPre' label' context' outLen outLen' h h' heq
    obtain ⟨hlabel, -, hout⟩ := h
    obtain ⟨hlabel', -, hout'⟩ := h'
    exact hkdfLabel_inj (by omega) (by omega) (by rw [List.length_append]; omega) (by rw [List.length_append]; omega) heq

/-- 42 bytes, two blocks; a label that ends where the context begins. -/
theorem hkdf_correct_sample :
    (∃ out, hkdfExpand [0x0b] [0xf0] 42 = .ok out ∧ out.1 = expand [0x0b] [0xf0] 42) ∧
    (∃ out, hkdfExpandLabel [0x0b] [0x61] [0x62] [] 42 = .ok out) ∧
    hkdfLabel 42 ([0x61] ++ [0x62]) [] ≠ hkdfLabel 42 ([0x61] ++ []) [0x62] := by
  obtain ⟨hexpand, hlabel, hinj⟩ := hkdf_correct
  refine ⟨?_, (hlabel _ _ _ _ _).1.mpr ⟨by decide, by decide, by decide⟩, ?_⟩
  · obtain ⟨out, hok, heq, -⟩ := hexpand [0x0b] [0xf0] 42 (by decide) (by decide)
    exact ⟨out, hok, heq⟩
  · intro h
    obtain ⟨-, hne, -⟩ := hinj [0x61] [0x62] [] [0x61] [] [0x62] 42 42 ⟨by decide, by decide, by decide⟩
      ⟨by decide, by decide, by decide⟩ h
    cases hne

end ND.Proof.Hkdf
