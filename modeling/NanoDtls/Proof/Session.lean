import NanoDtls.Proof.Record

/-!
# Record sessions over whole runs

A session is a sender, the log of the records it has emitted, a receiver and
the sequence numbers delivered to it so far. Its steps are the sender's calls
and what a network may do: deliver a record of the log, any number of times
and in any order, or hand over a datagram that is rejected (`Step`). Record
`i` of the log is sealed under the number `i` and the receiver's high-water
mark is the maximum of the numbers delivered (`Inv`, kept by every step), so
each delivery within half a window of that mark returns what was protected
(`deliver_ok`).
-/

namespace ND.Proof.Session

open ND.Impl ND.Impl.Record ND.Proof.Record

/-- One record of the log: what was protected, and the record. -/
structure Emitted where
  contentType : Byte
  plaintext : Bytes
  record : Bytes

structure State where
  sender : RecordProtection
  sent : List Emitted
  receiver : RecordUnprotection
  delivered : List Nat

/-- The highest of the numbers delivered, 0 if there is none. -/
def maxDelivered (l : List Nat) : Nat := l.foldl max 0

/-- The receiver after a call of `recordUnprotect`, whatever the call returns. -/
def afterUnprotect (u : RecordUnprotection) (datagram : Bytes) (cap : Nat) : RecordUnprotection :=
  match recordUnprotect u datagram cap with
  | .ok (_, _, u') => u'
  | .error _ => u

/-- The sender after a call of `recordProtect`, and the log. -/
def afterProtect (s : State) (contentType : Byte) (plaintext : Bytes) (cap : Nat) : State :=
  match recordProtect s.sender contentType plaintext cap with
  | .ok (record, p) => { s with sender := p, sent := s.sent ++ [⟨contentType, plaintext, record⟩] }
  | .error _ => s

section Runs

variable (key : BytesN 32) (iv : BytesN 12) (epoch : BitVec 16)

def init : State where
  sender := recordProtectionInit key iv epoch
  sent := []
  receiver := recordUnprotectionInit key iv epoch
  delivered := []

/-- The steps of a session. A record is delivered only within half a window of the receiver's
mark, to a buffer that its plaintext fits. -/
inductive Step : State → State → Prop
  | protect (s : State) {contentType : Byte} (plaintext : Bytes) (cap : Nat) (h : contentType ≠ 0) :
      Step s (afterProtect s contentType plaintext cap)
  | deliver (s : State) {i cap : Nat} {e : Emitted} (h : s.sent[i]? = some e)
      (near : seqDist i s.receiver.highestSeenSequence < 2 ^ 15) (fits : e.plaintext.length ≤ cap) :
      Step s { s with receiver := afterUnprotect s.receiver e.record cap, delivered := s.delivered ++ [i] }
  | reject (s : State) {datagram : Bytes} {cap : Nat} {err : Status}
      (h : recordUnprotect s.receiver datagram cap = .error err) :
      Step s { s with receiver := afterUnprotect s.receiver datagram cap }

inductive Reachable : State → Prop
  | init : Reachable (init key iv epoch)
  | step {s s' : State} (r : Reachable s) (h : Step s s') : Reachable s'

/-- What holds of every session reached with at most `2^48` records sent. -/
structure Inv (s : State) : Prop where
  sender : s.sender = ⟨key, iv, s.sent.length, epoch⟩
  receiver : s.receiver = ⟨key, iv, maxDelivered s.delivered, epoch⟩
  delivered : ∀ i ∈ s.delivered, i < s.sent.length
  sent : ∀ (i : Nat) (e : Emitted), s.sent[i]? = some e → e.contentType ≠ 0 ∧ e.plaintext.length ≤ 2047 ∧
    e.record = sealRecord ⟨key, iv, i, epoch⟩ e.contentType e.plaintext

variable {key iv epoch}

theorem maxDelivered_append (l : List Nat) (i : Nat) :
    maxDelivered (l ++ [i]) = max (maxDelivered l) i := by
  rw [maxDelivered, List.foldl_append]; rfl

theorem maxDelivered_lt {l : List Nat} {n : Nat} (hn : 0 < n) (h : ∀ i ∈ l, i < n) : maxDelivered l < n := by
  induction l using List.reverseRecOn with
  | nil => exact hn
  | append_singleton l i ih =>
    rw [maxDelivered_append, Nat.max_lt]
    exact ⟨ih fun j hj => h j (List.mem_append_left _ hj), h i (by simp)⟩

/-- A record of the log within half a window of the mark is opened to what was protected. -/
theorem deliver_ok {s : State} (inv : Inv key iv epoch s) (hn : s.sent.length ≤ 2 ^ 48) {i cap : Nat}
    {e : Emitted} (h : s.sent[i]? = some e)
    (near : seqDist i s.receiver.highestSeenSequence < 2 ^ 15) (fits : e.plaintext.length ≤ cap) :
    recordUnprotect s.receiver e.record cap =
      .ok (e.plaintext, e.contentType, ⟨key, iv, maxDelivered (s.delivered ++ [i]), epoch⟩) := by
  obtain ⟨hi, -⟩ := List.getElem?_eq_some_iff.mp h
  obtain ⟨hct, hpt, hrec⟩ := inv.sent i e h
  have hhigh : maxDelivered s.delivered < 2 ^ 48 :=
    maxDelivered_lt (by decide) fun j hj => Nat.lt_of_lt_of_le (inv.delivered j hj) hn
  rw [inv.receiver] at near ⊢
  rw [hrec, maxDelivered_append]
  exact unprotect_sealRecord rfl rfl rfl hct hpt fits (Nat.lt_of_lt_of_le hi hn) hhigh near

theorem inv_init : Inv key iv epoch (init key iv epoch) where
  sender := rfl
  receiver := rfl
  delivered := fun i hi => by cases hi
  sent := fun i e h => by cases h

theorem inv_protect {s : State} (inv : Inv key iv epoch s) {ct : Byte} (hct : ct ≠ 0) (pt : Bytes) (cap : Nat)
    (hn : (afterProtect s ct pt cap).sent.length ≤ 2 ^ 48) : Inv key iv epoch (afterProtect s ct pt cap) := by
  unfold afterProtect at hn ⊢
  split at hn
  · rename_i record p h
    obtain ⟨hpt, -, hrec, hp⟩ := recordProtect_eq_ok.mp h
    simp only [List.length_append, List.length_singleton] at hn
    refine ⟨?_, inv.receiver, fun i hi => ?_, fun i e he => ?_⟩
    · simp only [hp, inv.sender, List.length_append, List.length_singleton]
      rw [Nat.mod_eq_of_lt (by omega)]
    · rw [List.length_append]
      exact Nat.lt_add_right _ (inv.delivered i hi)
    · -- the record just sent is the last of the log
      rw [List.getElem?_append] at he
      split at he
      · exact inv.sent i e he
      · rename_i hlt
        obtain ⟨hlast, rfl⟩ := List.getElem?_eq_some_iff.mp he
        have hi : i = s.sent.length := by simp only [List.length_singleton] at hlast; omega
        refine ⟨by simpa using hct, by simpa using hpt, ?_⟩
        simp only [List.getElem_singleton, hrec, inv.sender, hi]
  · exact inv

theorem inv_step {s s' : State} (inv : Inv key iv epoch s) (h : Step s s')
    (hn : s'.sent.length ≤ 2 ^ 48) : Inv key iv epoch s' := by
  cases h with
  | protect pt cap hct => exact inv_protect inv hct pt cap hn
  | @deliver i cap e h near fits =>
    have hok := deliver_ok inv hn h near fits
    refine ⟨inv.sender, ?_, fun j hj => ?_, inv.sent⟩
    · simp only [afterUnprotect, hok]
    · obtain hj | hj := List.mem_append.mp hj
      · exact inv.delivered j hj
      · rw [List.mem_singleton.mp hj]
        exact (List.getElem?_eq_some_iff.mp h).1
  | reject h =>
    rw [show afterUnprotect s.receiver _ _ = s.receiver by simp only [afterUnprotect, h]]
    exact inv

/-- Steps only extend the log. -/
theorem length_sent_le {s s' : State} (h : Step s s') : s.sent.length ≤ s'.sent.length := by
  cases h with
  | protect pt cap hct =>
    unfold afterProtect
    split <;> simp
  | deliver h near fits => exact Nat.le_refl _
  | reject h => exact Nat.le_refl _

theorem reachable_inv {s : State} (r : Reachable key iv epoch s) (hn : s.sent.length ≤ 2 ^ 48) :
    Inv key iv epoch s := by
  induction r with
  | init => exact inv_init
  | step r h ih => exact inv_step (ih (Nat.le_trans (length_sent_le h) hn)) h hn

end Runs

/-- Sessions are correct over whole runs: in every session reached from a key, an IV and an epoch
with at most `2^48` records sent, the receiver's mark is the highest number delivered, and every
record of the log that is within `2^15` of the mark is opened, to exactly the content type and the
plaintext that were protected, and moves the mark to the highest number delivered then. -/
theorem session_correct (key : BytesN 32) (iv : BytesN 12) (epoch : BitVec 16) (s : State)
    (r : Reachable key iv epoch s) (hn : s.sent.length ≤ 2 ^ 48) :
    s.receiver.highestSeenSequence = maxDelivered s.delivered ∧
    ∀ (i : Nat) (e : Emitted) (cap : Nat), s.sent[i]? = some e →
      seqDist i s.receiver.highestSeenSequence < 2 ^ 15 → e.plaintext.length ≤ cap →
      recordUnprotect s.receiver e.record cap = .ok (e.plaintext, e.contentType,
        { s.receiver with highestSeenSequence := maxDelivered (s.delivered ++ [i]) }) := by
  have inv := reachable_inv r hn
  refine ⟨by rw [inv.receiver], fun i e cap h near fits => ?_⟩
  rw [deliver_ok inv hn h near fits, inv.receiver]

/-- A session of one record that is delivered twice. -/
theorem session_correct_repeat : ∃ (s : State) (e : Emitted), Reachable (zeros 32) (zeros 12) 2 s ∧
    s.sent = [e] ∧ s.delivered = [0] ∧ e.plaintext = [7] ∧ e.contentType = ctHandshake ∧
    s.receiver.highestSeenSequence = 0 ∧
    recordUnprotect s.receiver e.record 1 =
      .ok ([7], ctHandshake, { s.receiver with highestSeenSequence := 0 }) := by
  let p := recordProtectionInit (zeros 32) (zeros 12) 2
  let e : Emitted := ⟨ctHandshake, [7], sealRecord p ctHandshake [7]⟩
  have hp : afterProtect (init (zeros 32) (zeros 12) 2) ctHandshake [7] 64 =
      ⟨{ p with nextSendSequence := 1 }, [e], recordUnprotectionInit (zeros 32) (zeros 12) 2, []⟩ := by
    have hr : recordProtect p ctHandshake [7] 64 = .ok (e.record, { p with nextSendSequence := 1 }) :=
      recordProtect_eq_ok.mpr ⟨by decide, by decide, rfl, rfl⟩
    simp only [afterProtect, init, p] at hr ⊢
    rw [hr]
    rfl
  have r1 : Reachable (zeros 32) (zeros 12) 2
      (afterProtect (init (zeros 32) (zeros 12) 2) ctHandshake [7] 64) :=
    .step .init (.protect _ [7] 64 (by decide))
  rw [hp] at r1
  have r2 := Reachable.step r1 (@Step.deliver _ 0 1 e rfl (by decide) (by decide))
  obtain ⟨hm, hd⟩ := session_correct _ _ _ _ r2 (by decide)
  exact ⟨_, e, r2, rfl, rfl, rfl, rfl, hm, hd 0 e 1 rfl (by rw [hm]; decide) (by decide)⟩

end ND.Proof.Session
