import NanoDtls.Proof.Record
import Mathlib.Data.Nat.Bitwise

/-!
# Runs of a sender

A sender makes any calls of `nd_record_protect`, one after the other. A call
succeeds if its plaintext and its buffer fit (`protectCall_of_fits`) and
otherwise changes nothing (`protectCall_of_not_fits`), so a run counts its
successes (`runCalls_eq`). Their nonces are those of different numbers
(`no_nonce_reuse`). The numbers stay below `2^48`, and a receiver that keeps
up can follow, if and only if at most `2^48` calls succeed
(`sender_in_range_iff`).
-/

namespace ND.Proof.Record

open ND.Impl ND.Impl.Record ND.Impl.Aead
open Spec.Record (nonce)

/-- The arguments of a call: `out_buf` with what it holds, and `out_len`. -/
structure Call where
  contentType : Byte
  plaintext : Bytes
  outBuf : Bytes
  outLen : Nat

/-- A call from the state `p`. -/
def protectCall (p : RecordProtection) (c : Call) : Result Unit × ProtectMem :=
  recordProtectInto c.contentType c.plaintext ⟨p, c.outBuf, c.outLen⟩

/-- The state after a run of calls. -/
def runCalls (p : RecordProtection) (calls : List Call) : RecordProtection :=
  calls.foldl (fun p c => (protectCall p c).2.p) p

/-- The plaintext fits the inner buffer and the record fits `out_buf`. -/
def Call.fits (c : Call) : Bool := c.plaintext.length ≤ 2047 && c.plaintext.length + 22 ≤ c.outBuf.length

/-- The state with the next number. -/
def bump (p : RecordProtection) : RecordProtection := { p with nextSendSequence := (p.nextSendSequence + 1) % 2 ^ 64 }

variable {p : RecordProtection} {c : Call}

theorem protectCall_of_fits (h : c.fits = true) : protectCall p c =
    (.ok (), ⟨bump p, sealRecord p c.contentType c.plaintext ++ c.outBuf.drop (c.plaintext.length + 22),
      c.plaintext.length + 22⟩) := by
  simp only [Call.fits, Bool.and_eq_true, decide_eq_true_eq] at h
  rw [protectCall, recordProtectInto_eq, recordProtect_eq_ok.mpr ⟨h.1, h.2, rfl, rfl⟩, returnIfError_ok, length_sealRecord]
  rfl

/-- A call that does not fit fails, and changes nothing. -/
theorem protectCall_of_not_fits (h : c.fits = false) : ∃ st, protectCall p c = (.error st, ⟨p, c.outBuf, c.outLen⟩) := by
  rw [protectCall, recordProtectInto_eq]
  cases hr : recordProtect p c.contentType c.plaintext c.outBuf.length with
  | error st => exact ⟨st, rfl⟩
  | ok r =>
    obtain ⟨hpt, hcap, -, -⟩ := recordProtect_eq_ok.mp hr
    simp [Call.fits, hpt, hcap] at h

theorem protectCall_ok_iff : (protectCall p c).1 = .ok () ↔ c.fits = true := by
  cases h : c.fits with
  | true => simp [protectCall_of_fits h]
  | false =>
    obtain ⟨st, hst⟩ := protectCall_of_not_fits (p := p) h
    simp [hst]

/-- One call counts, or changes nothing. -/
theorem protectCall_p (p : RecordProtection) (c : Call) : (protectCall p c).2.p = if c.fits then bump p else p := by
  cases h : c.fits with
  | true => rw [protectCall_of_fits h]; rfl
  | false =>
    obtain ⟨st, hst⟩ := protectCall_of_not_fits (p := p) h
    rw [hst]
    rfl

/-- A run counts its successes. -/
theorem runCalls_eq (calls : List Call) : ∀ p : RecordProtection, p.nextSendSequence < 2 ^ 64 →
    runCalls p calls = { p with nextSendSequence := (p.nextSendSequence + calls.countP Call.fits) % 2 ^ 64 } := by
  induction calls with
  | nil =>
    intro p hp
    rw [List.countP_nil, Nat.add_zero, Nat.mod_eq_of_lt hp]
    rfl
  | cons c calls ih =>
    intro p hp
    rw [runCalls, List.foldl_cons, protectCall_p, ← runCalls]
    cases hc : c.fits with
    | true =>
      rw [if_pos rfl, ih (bump p) (Nat.mod_lt _ (by decide)), List.countP_cons_of_pos hc]
      simp only [bump, Nat.mod_add_mod, Nat.add_assoc, Nat.add_comm 1]
    | false => rw [if_neg (by simp), ih p hp, List.countP_cons_of_neg (by simp [hc])]

theorem init_lt (key : BytesN 32) (iv : BytesN 12) (epoch : BitVec 16) :
    (recordProtectionInit key iv epoch).nextSendSequence < 2 ^ 64 := show 0 < 2 ^ 64 by decide

/-! ## Nonces -/

/-- The nonces of the calls of a run that succeed. -/
def nonces (p : RecordProtection) : List Call → List (BytesN 12)
  | [] => []
  | c :: calls => (if (protectCall p c).1 = .ok () then [buildNonce p.writeIv p.nextSendSequence] else []) ++
      nonces (protectCall p c).2.p calls

/-- They are those of the numbers from the first one on. -/
theorem nonces_eq (calls : List Call) : ∀ p : RecordProtection, p.nextSendSequence < 2 ^ 64 → nonces p calls =
    (List.range (calls.countP Call.fits)).map fun i => buildNonce p.writeIv ((p.nextSendSequence + i) % 2 ^ 64) := by
  induction calls with
  | nil => exact fun _ _ => rfl
  | cons c calls ih =>
    intro p hp
    rw [nonces, protectCall_p]
    simp only [protectCall_ok_iff]
    cases hc : c.fits with
    | true =>
      rw [if_pos rfl, if_pos rfl, ih (bump p) (Nat.mod_lt _ (by decide)), List.countP_cons_of_pos hc,
        List.range_succ_eq_map, List.map_cons, Nat.add_zero, Nat.mod_eq_of_lt hp, List.map_map, List.singleton_append]
      simp only [bump, Nat.mod_add_mod, Function.comp_def, Nat.succ_eq_add_one, Nat.add_assoc, Nat.add_comm 1]
    | false => rw [if_neg (by simp), if_neg (by simp), ih p hp, List.countP_cons_of_neg (by simp [hc]), List.nil_append]

/-- Different numbers have different nonces. -/
theorem buildNonce_inj {iv : BytesN 12} {n m : Nat} (hn : n < 2 ^ 64) (hm : m < 2 ^ 64)
    (h : buildNonce iv n = buildNonce iv m) : n = m := by
  have hxor : ∀ k < 2 ^ 64, beNat (nonce iv k).1 = beNat iv.1 ^^^ k := by
    intro k hk
    have hiv : beNat iv.1 < 2 ^ 96 := (beNat_lt iv.1).trans_eq (by rw [iv.2]; rfl)
    rw [nonce, beNat_beBytes]
    exact Nat.mod_eq_of_lt (Nat.xor_lt_two_pow hiv (hk.trans (by decide)))
  rw [buildNonce_eq iv hn, buildNonce_eq iv hm] at h
  have hval := congrArg (fun b => beNat b.1) h
  simp only [hxor n hn, hxor m hm] at hval
  exact Nat.xor_right_injective hval

/-- Along every run of calls with at most `2^64` successes no nonce is used twice. A call that fails leaves the state
and the output as they were; what one that succeeds writes is encrypted under its nonce. -/
theorem no_nonce_reuse (key : BytesN 32) (iv : BytesN 12) (epoch : BitVec 16) (calls : List Call)
    (h : (nonces (recordProtectionInit key iv epoch) calls).length ≤ 2 ^ 64) :
    (nonces (recordProtectionInit key iv epoch) calls).Nodup ∧
    (∀ p c st, (protectCall p c).1 = .error st → (protectCall p c).2 = ⟨p, c.outBuf, c.outLen⟩) ∧
    (∀ p c, (protectCall p c).1 = .ok () → ∃ hdr rest : Bytes, ∃ enc : Bytes × BytesN 16, hdr.length = 5 ∧
      enc = aeadChacha20Poly1305Encrypt p.writeKey (buildNonce p.writeIv p.nextSendSequence) hdr
        (c.plaintext ++ [c.contentType]) ∧
      (protectCall p c).2.outBuf = hdr ++ enc.1 ++ enc.2.1 ++ rest) := by
  refine ⟨?_, ?_, ?_⟩
  · rw [nonces_eq calls _ (init_lt key iv epoch)] at h ⊢
    rw [List.length_map, List.length_range] at h
    refine List.Nodup.map_on ?_ List.nodup_range
    intro i hi j hj heq
    rw [List.mem_range] at hi hj
    have hij := buildNonce_inj (Nat.mod_lt _ (by decide)) (Nat.mod_lt _ (by decide)) heq
    simp only [recordProtectionInit, Nat.zero_add] at hij
    omega
  · intro p c st hst
    cases hc : c.fits with
    | true =>
      rw [protectCall_ok_iff.mpr hc] at hst
      cases hst
    | false =>
      obtain ⟨st', hst'⟩ := protectCall_of_not_fits (p := p) hc
      rw [hst']
  · intro p c hok
    rw [protectCall_of_fits (protectCall_ok_iff.mp hok)]
    refine ⟨writeFixedShapeHeader (p.epoch &&& 3) (p.nextSendSequence % 2 ^ 16) (c.plaintext.length + 17), _, _, ?_, rfl, rfl⟩
    rw [writeFixedShapeHeader_eq, length_header]
    rfl

theorem no_nonce_reuse_two :
    (nonces (recordProtectionInit (zeros 32) (zeros 12) 2)
      [⟨23, [1], List.replicate 23 0, 0⟩, ⟨23, [1], [], 0⟩, ⟨23, [1], List.replicate 30 0, 0⟩]).Nodup :=
  (no_nonce_reuse (zeros 32) (zeros 12) 2 _ (by
    rw [nonces_eq _ _ (by decide), List.length_map, List.length_range]
    decide)).1

/-! ## The range of the numbers -/

/-- The receiver that has seen every record before. -/
def lockStep (p : RecordProtection) : RecordUnprotection := ⟨p.writeKey, p.writeIv, p.nextSendSequence - 1, p.epoch⟩

/-- What a call has put into `out_buf`. -/
def recordOf (p : RecordProtection) (c : Call) : Bytes := (protectCall p c).2.outBuf.take (protectCall p c).2.outLen

/-- The record of a call has a number of 48 bits, and the receiver that has seen every record before finds the number,
decrypts the record, and, if the content type is one, takes it in. -/
structure Delivered (p : RecordProtection) (c : Call) : Prop where
  below : p.nextSendSequence < 2 ^ 48
  number : reconstructSequenceNumber (lockStep p).highestSeenSequence (p.nextSendSequence % 2 ^ 16) 16 = p.nextSendSequence
  decrypted : ∃ (hdr ciphertext : Bytes) (tag : BytesN 16), recordOf p c = hdr ++ ciphertext ++ tag.1 ∧ hdr.length = 5 ∧
    aeadChacha20Poly1305Decrypt (lockStep p).readKey (buildNonce (lockStep p).readIv p.nextSendSequence) hdr ciphertext tag =
      .ok (c.plaintext ++ [c.contentType])
  opened : c.contentType ≠ 0 → ∀ cap, c.plaintext.length ≤ cap →
    recordUnprotect (lockStep p) (recordOf p c) cap = .ok (c.plaintext, c.contentType, lockStep (protectCall p c).2.p)

theorem recordOf_of_fits (h : c.fits = true) : recordOf p c = sealRecord p c.contentType c.plaintext := by
  rw [recordOf, protectCall_of_fits h]
  exact List.take_left' (length_sealRecord _ _ _)

/-- A number of 48 bits is delivered. -/
theorem delivered (h : c.fits = true) (hp : p.nextSendSequence < 2 ^ 48) : Delivered p c := by
  have hnear : seqDist p.nextSendSequence (p.nextSendSequence - 1) < 2 ^ 15 := by
    rw [seqDist_eq]
    omega
  have hhigh : (lockStep p).highestSeenSequence < 2 ^ 48 := by
    show p.nextSendSequence - 1 < 2 ^ 48
    omega
  refine ⟨hp, reconstructSequenceNumber_mod (.inr rfl) hhigh hp hnear, ?_, ?_⟩
  · refine ⟨_, _, _, recordOf_of_fits h, ?_, Aead.decrypt_encrypt _ _ _ _⟩
    rw [writeFixedShapeHeader_eq, length_header]
    rfl
  · intro hct cap hcap
    have hpt : c.plaintext.length ≤ 2047 := by
      simp only [Call.fits, Bool.and_eq_true, decide_eq_true_eq] at h
      exact h.1
    rw [recordOf_of_fits h, unprotect_sealRecord rfl rfl rfl hct hpt hcap hp hhigh hnear, protectCall_p, h, if_pos rfl]
    simp only [lockStep, bump]
    rw [Nat.max_eq_right (by omega), Nat.mod_eq_of_lt (by omega), Nat.add_sub_cancel]

/-- The call of a list that has `k` calls before it that satisfy `f`. -/
theorem exists_split_countP {α : Type} (f : α → Bool) : ∀ (l : List α) (k : Nat), k < l.countP f →
    ∃ before a after, l = before ++ a :: after ∧ f a = true ∧ before.countP f = k
  | [], k, h => absurd h (by simp)
  | a :: l, k, h => by
    by_cases ha : f a = true
    · rw [List.countP_cons_of_pos ha] at h
      cases k with
      | zero => exact ⟨[], a, l, rfl, ha, rfl⟩
      | succ k =>
        obtain ⟨before, b, after, rfl, hb, hk⟩ := exists_split_countP f l k (by omega)
        exact ⟨a :: before, b, after, rfl, hb, by rw [List.countP_cons_of_pos ha, hk]⟩
    · rw [List.countP_cons_of_neg ha] at h
      obtain ⟨before, b, after, rfl, hb, hk⟩ := exists_split_countP f l k h
      exact ⟨a :: before, b, after, rfl, hb, by rw [List.countP_cons_of_neg ha, hk]⟩

/-- Every successful call of a run is delivered if and only if at most `2^48` of its calls fit. -/
theorem sender_in_range_iff (key : BytesN 32) (iv : BytesN 12) (epoch : BitVec 16) (calls : List Call) :
    (∀ before c after, calls = before ++ c :: after →
      (protectCall (runCalls (recordProtectionInit key iv epoch) before) c).1 = .ok () →
      Delivered (runCalls (recordProtectionInit key iv epoch) before) c) ↔ calls.countP Call.fits ≤ 2 ^ 48 := by
  have hnumber : ∀ before : List Call, (runCalls (recordProtectionInit key iv epoch) before).nextSendSequence =
      before.countP Call.fits % 2 ^ 64 := by
    intro before
    rw [runCalls_eq before _ (init_lt key iv epoch)]
    simp only [recordProtectionInit, Nat.zero_add]
  constructor
  · intro h
    by_contra hlt
    -- the call after `2^48` successes has the number `2^48`
    obtain ⟨before, c, after, hsplit, hc, hk⟩ := exists_split_countP Call.fits calls (2 ^ 48) (by omega)
    have hbelow := (h before c after hsplit (protectCall_ok_iff.mpr hc)).below
    rw [hnumber, hk] at hbelow
    exact absurd hbelow (by decide)
  · rintro hle before c after rfl hok
    have hc := protectCall_ok_iff.mp hok
    rw [List.countP_append, List.countP_cons_of_pos hc] at hle
    refine delivered hc ?_
    rw [hnumber, Nat.mod_eq_of_lt (by omega)]
    omega

/-- After `2^48` records the next one is numbered `2^48`, and the receiver that has seen all of them takes it for the
record `2^48 - 2^16` and rejects it. -/
theorem sender_leaves_range : ∃ (c : Call) (p : RecordProtection), c = ⟨23, [], List.replicate 22 0, 0⟩ ∧
    p = runCalls (recordProtectionInit (zeros 32) (zeros 12) 2) (List.replicate (2 ^ 48) c) ∧
    (protectCall p c).1 = .ok () ∧ p.nextSendSequence = 2 ^ 48 ∧
    reconstructSequenceNumber (lockStep p).highestSeenSequence (p.nextSendSequence % 2 ^ 16) 16 = 2 ^ 48 - 2 ^ 16 ∧
    recordUnprotect (lockStep p) (recordOf p c) 0 = .error .authFailed := by
  have hfits : (⟨23, [], List.replicate 22 0, 0⟩ : Call).fits = true := by decide
  refine ⟨_, ⟨zeros 32, zeros 12, 2 ^ 48, 2⟩, rfl, ?_, protectCall_ok_iff.mpr hfits, rfl, by decide +kernel, ?_⟩
  · rw [runCalls_eq _ _ (init_lt _ _ _), List.countP_replicate, if_pos hfits]
    rfl
  · rw [recordOf_of_fits hfits]
    decide +kernel

end ND.Proof.Record
