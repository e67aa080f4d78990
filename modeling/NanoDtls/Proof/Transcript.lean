import NanoDtls.Impl.Handshake
import NanoDtls.Proof.Sha256

/-!
# The transcript hash

A snapshot of a transcript is the hash of the messages that were added, one
after the other (`transcriptSnapshot_eq`), whatever their lengths. The calls
of a run (`runCalls`) add messages and take snapshots in any order. A snapshot
finishes a copy, which changes the copy (`Sha256.sha256Final_ne`) and leaves the
transcript as it is (`runCalls_filter`), so each one is the digest of what was
added before it.
-/

namespace ND.Proof.Transcript

open ND.Impl Sha256 Handshake

/-- A snapshot is the hash of what was fed. -/
theorem transcriptSnapshot_eq (t : Transcript) : transcriptSnapshot t = sha256 t.fed.flatten := by
  have h := Sha256.foldl_sha256Update t.fed Sha256.ready_init (a := [])
  rw [transcriptSnapshot, transcriptSnapshotInto, t.ctx_eq, sha256]
  exact congrArg (fun ctx => (sha256Final ctx).1) h

@[simp] theorem flatten_transcriptInit : transcriptInit.fed.flatten = [] := rfl

@[simp] theorem flatten_transcriptAdd (t : Transcript) (msg : Bytes) :
    (transcriptAdd t msg).fed.flatten = t.fed.flatten ++ msg := by
  rw [transcriptAdd, List.flatten_append, List.flatten_singleton]

/-- The transcript of the two hellos, for messages that are not to be unfolded. -/
theorem flatten_hellos (ch sh : Bytes) : (transcriptAdd (transcriptAdd transcriptInit ch) sh).fed.flatten = ch ++ sh := by
  rw [flatten_transcriptAdd, flatten_transcriptAdd, flatten_transcriptInit, List.nil_append]

/-! ## Runs of calls -/

/-- A call of `nd_transcript_add` or of `nd_transcript_snapshot`. -/
inductive Call where
  | add (msg : Bytes)
  | snapshot
deriving DecidableEq

namespace Call

def isAdd : Call → Bool
  | add _ => true
  | snapshot => false

/-- The bytes that a call adds. -/
def bytes : Call → Bytes
  | add msg => msg
  | snapshot => []

end Call

/-- The bytes that the calls add, one after the other. -/
def added (calls : List Call) : Bytes := calls.flatMap Call.bytes

theorem added_cons (c : Call) (calls : List Call) : added (c :: calls) = c.bytes ++ added calls := List.flatMap_cons

theorem added_append (before after : List Call) : added (before ++ after) = added before ++ added after :=
  List.flatMap_append

/-- The transcript after a call, and the digest it returns. -/
def runCall (t : Transcript) : Call → Transcript × List (BytesN 32)
  | .add msg => (transcriptAdd t msg, [])
  | .snapshot =>
    let (digest, t, _) := transcriptSnapshotInto t
    (t, [digest])

/-- The transcript after some calls, and the digests they return. -/
def runCalls (t : Transcript) : List Call → Transcript × List (BytesN 32)
  | [] => (t, [])
  | c :: calls => ((runCalls (runCall t c).1 calls).1, (runCall t c).2 ++ (runCalls (runCall t c).1 calls).2)

theorem runCalls_append : ∀ (before after : List Call) (t : Transcript),
    runCalls t (before ++ after) =
      ((runCalls (runCalls t before).1 after).1, (runCalls t before).2 ++ (runCalls (runCalls t before).1 after).2)
  | [], _, _ => rfl
  | c :: before, after, t => by
    simp only [List.cons_append, runCalls]
    rw [runCalls_append before after, List.append_assoc]

/-- The transcript has been fed what the calls add. -/
theorem flatten_runCalls : ∀ (calls : List Call) (t : Transcript),
    (runCalls t calls).1.fed.flatten = t.fed.flatten ++ added calls
  | [], t => (List.append_nil _).symm
  | c :: calls, t => by
    rw [runCalls, flatten_runCalls calls, added_cons, ← List.append_assoc]
    rcases c with msg | _
    · rw [runCall, flatten_transcriptAdd]
      rfl
    · rw [runCall, transcriptSnapshotInto, Call.bytes, List.append_nil]

/-- Without the snapshots the transcript is the same. -/
theorem runCalls_filter : ∀ (calls : List Call) (t : Transcript),
    (runCalls t (calls.filter Call.isAdd)).1 = (runCalls t calls).1
  | [], _ => rfl
  | .add msg :: calls, t => by
    rw [List.filter_cons_of_pos rfl, runCalls, runCalls, runCalls_filter calls]
  | .snapshot :: calls, t => by
    rw [List.filter_cons_of_neg (by decide), runCalls_filter calls, runCalls]
    rfl

theorem digests_filter : ∀ (calls : List Call) (t : Transcript), (runCalls t (calls.filter Call.isAdd)).2 = []
  | [], _ => rfl
  | .add msg :: calls, t => by
    rw [List.filter_cons_of_pos rfl, runCalls, digests_filter calls]
    rfl
  | .snapshot :: calls, t => by
    rw [List.filter_cons_of_neg (by decide), digests_filter calls]

/-- Each snapshot is the digest of what was added before it, and the snapshots before it do not
change what the calls after them return. -/
theorem snapshots_are_digests (calls : List Call) (h : (added calls).length < 2 ^ 61) :
    (∀ before after, calls = before ++ .snapshot :: after → ∃ digest rest,
      (runCalls transcriptInit calls).2 = (runCalls transcriptInit before).2 ++ digest :: rest ∧
        digest.1 = Spec.Fips180.sha256 (added before)) ∧
    ∀ before after, calls = before ++ after →
      (runCalls transcriptInit calls).2 =
        (runCalls transcriptInit before).2 ++ (runCalls transcriptInit (before.filter Call.isAdd ++ after)).2 := by
  refine ⟨?_, ?_⟩
  · rintro before after rfl
    refine ⟨transcriptSnapshot (runCalls transcriptInit before).1, (runCalls (runCalls transcriptInit before).1 after).2,
      ?_, ?_⟩
    · rw [runCalls_append, runCalls]
      rfl
    · have hlen : (added before).length < 2 ^ 61 := by
        rw [added_append, List.length_append] at h
        exact Nat.lt_of_le_of_lt (Nat.le_add_right _ _) h
      rw [transcriptSnapshot_eq, flatten_runCalls, flatten_transcriptInit, List.nil_append, Sha256.sha256_eq hlen]
  · rintro before after rfl
    rw [runCalls_append, runCalls_append, runCalls_filter, digests_filter, List.nil_append]

/-- The digest of `abc`, added in two messages with a snapshot between them. -/
theorem snapshots_are_digests_abc :
    (added [.add [0x61], .snapshot, .add [0x62, 0x63], .snapshot]).length < 2 ^ 61 ∧
      ∃ digest rest, (runCalls transcriptInit [.add [0x61], .snapshot, .add [0x62, 0x63], .snapshot]).2 =
        (runCalls transcriptInit [.add [0x61], .snapshot, .add [0x62, 0x63]]).2 ++ digest :: rest ∧
          digest.1 = Spec.Fips180.sha256 [0x61, 0x62, 0x63] :=
  ⟨by decide, (snapshots_are_digests [.add [0x61], .snapshot, .add [0x62, 0x63], .snapshot] (by decide)).1
    [.add [0x61], .snapshot, .add [0x62, 0x63]] [] rfl⟩

end ND.Proof.Transcript
