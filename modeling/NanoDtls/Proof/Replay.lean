import NanoDtls.Impl.Replay
import NanoDtls.Spec.Replay

/-!
# The anti-replay window remembers a set

A window represents the set `S` of the numbers accepted (`Represents`): it is
untouched if `S` is empty, else its highest number is the maximum of `S` and
bit `i` of its bitmap says whether `S` has the number `i` below. One `accept`
adds its number to the set (`accept_represents`), whatever the number: ahead
of the window, in it or behind it. So a window that has accepted a list
represents the list's set (`acceptAll_represents`), a set has one window
(`Represents.unique`), and `check` decides freshness (`check_iff_fresh`).
-/

namespace ND.Proof.Replay

open ND.Impl.Replay ND.Spec.Replay

/-- The numbers a list of sequence numbers stands for. -/
def seqSet (l : List (BitVec 64)) : Set Nat := {n | ∃ x ∈ l, x.toNat = n}

/-- The window after accepting `l`. -/
def acceptAll (l : List (BitVec 64)) : ReplayWindow := l.foldl replayWindowAccept replayWindowInit

/-- `w` remembers that the numbers in `S` were accepted. -/
inductive Represents : ReplayWindow → Set Nat → Prop
  | empty : Represents replayWindowInit ∅
  | some {w : ReplayWindow} {S : Set Nat} (any : w.hasReceivedAny = true)
      (top : IsGreatest S w.highestSeen.toNat)
      (bits : ∀ i < 64, (w.bitmap.getLsbD i = true ↔ ∃ n ∈ S, n + i = w.highestSeen.toNat)) :
      Represents w S

theorem Represents.unique {w v : ReplayWindow} {S : Set Nat} (hw : Represents w S)
    (hv : Represents v S) : w = v := by
  cases hw with
  | empty =>
    cases hv with
    | empty => rfl
    | some _ top _ => exact absurd top.1 (Set.notMem_empty _)
  | some any top bits =>
    cases hv with
    | empty => exact absurd top.1 (Set.notMem_empty _)
    | some any' top' bits' =>
      have hh : w.highestSeen = v.highestSeen := BitVec.eq_of_toNat_eq (top.unique top')
      have hb : w.bitmap = v.bitmap := by
        refine BitVec.eq_of_getLsbD_eq fun i hi => Bool.eq_iff_iff.mpr ?_
        rw [bits i hi, bits' i hi, hh]
      obtain ⟨a, b, c⟩ := w
      obtain ⟨a', b', c'⟩ := v
      simp only at any any' hh hb
      subst any any' hh hb
      rfl

/-! ## Accepting a number -/

theorem getLsbD_one (i : Nat) : (1 : BitVec 64).getLsbD i = true ↔ i = 0 := by
  rw [show (1 : BitVec 64) = BitVec.twoPow 64 0 from rfl, BitVec.getLsbD_twoPow]
  simp only [Bool.and_eq_true, decide_eq_true_eq]; omega

/-- The low bit, as the C tests it. -/
theorem and_one_eq_zero (x : BitVec 64) : x &&& 1 = 0 ↔ ¬ x.getLsbD 0 = true := by
  rw [← BitVec.toNat_inj, BitVec.toNat_and, show (1 : BitVec 64).toNat = 1 from rfl, Nat.and_one_is_mod,
    BitVec.getLsbD, Nat.testBit_zero, decide_eq_true_eq]
  exact ⟨fun h => by rw [h]; decide, fun h => by simpa using h⟩

/-- The bits after a jump ahead of the window: those still in it move up, and the new
highest number's is set. -/
theorem getLsbD_jump (b : BitVec 64) (k : Nat) {i : Nat} (hi : i < 64) :
    ((if 64 ≤ k then 0 else b <<< k) ||| (1 : BitVec 64)).getLsbD i = true ↔
      i = 0 ∨ (k ≤ i ∧ b.getLsbD (i - k) = true) := by
  rw [BitVec.getLsbD_or, Bool.or_eq_true, getLsbD_one, or_comm]
  refine or_congr_right ?_
  split
  · simp only [BitVec.ofNat_eq_ofNat, BitVec.getLsbD_zero, Bool.false_eq_true, false_iff]
    omega
  · simp only [BitVec.getLsbD_shiftLeft, Bool.and_eq_true, decide_eq_true_eq, Bool.not_eq_true',
      decide_eq_false_iff_not, Nat.not_lt, hi, true_and]

theorem represents_first (s : BitVec 64) : Represents ⟨s, 1, true⟩ {s.toNat} := by
  refine .some rfl ⟨rfl, fun n hn => le_of_eq hn⟩ fun i hi => ?_
  rw [getLsbD_one]
  constructor
  · rintro rfl; exact ⟨_, rfl, rfl⟩
  · rintro ⟨n, hn, h⟩
    rw [Set.mem_singleton_iff.mp hn] at h
    exact Nat.add_left_cancel (m := i) (k := 0) h

/-- A number ahead of the window: the bitmap moves up by the jump. -/
theorem represents_ahead {w : ReplayWindow} {S : Set Nat} {s : BitVec 64}
    (top : IsGreatest S w.highestSeen.toNat)
    (bits : ∀ i < 64, (w.bitmap.getLsbD i = true ↔ ∃ n ∈ S, n + i = w.highestSeen.toNat))
    (h : w.highestSeen < s) :
    Represents ⟨s, (if 64 ≤ (s - w.highestSeen).toNat then 0
      else w.bitmap <<< (s - w.highestSeen).toNat) ||| 1, true⟩ (insert s.toNat S) := by
  have hlt : w.highestSeen.toNat < s.toNat := h
  have hk : (s - w.highestSeen).toNat = s.toNat - w.highestSeen.toNat := by bv_omega
  refine .some rfl ⟨Set.mem_insert _ _, ?_⟩ fun i hi => ?_
  · rintro n (rfl | hn)
    · exact Nat.le_refl _
    · exact Nat.le_trans (top.2 hn) (Nat.le_of_lt hlt)
  · simp only [getLsbD_jump _ _ hi, hk]
    constructor
    · rintro (rfl | ⟨hki, hb⟩)
      · exact ⟨_, Set.mem_insert _ _, rfl⟩
      · obtain ⟨n, hn, e⟩ := (bits _ (by omega)).mp hb
        exact ⟨n, Set.mem_insert_of_mem _ hn, by omega⟩
    · rintro ⟨n, rfl | hn, e⟩
      · exact .inl (by omega)
      · have := top.2 hn
        exact .inr ⟨by omega, (bits _ (by omega)).mpr ⟨n, hn, by omega⟩⟩

/-- A number in the window: its bit is set. -/
theorem represents_within {w : ReplayWindow} {S : Set Nat} {s : BitVec 64}
    (top : IsGreatest S w.highestSeen.toNat)
    (bits : ∀ i < 64, (w.bitmap.getLsbD i = true ↔ ∃ n ∈ S, n + i = w.highestSeen.toNat))
    (h : s ≤ w.highestSeen) :
    Represents ⟨w.highestSeen, w.bitmap ||| (1 : BitVec 64) <<< (w.highestSeen.toNat - s.toNat), true⟩
      (insert s.toNat S) := by
  have hle : s.toNat ≤ w.highestSeen.toNat := h
  refine .some rfl ⟨Set.mem_insert_of_mem _ top.1, ?_⟩ fun i hi => ?_
  · rintro n (rfl | hn)
    · exact hle
    · exact top.2 hn
  · rw [BitVec.getLsbD_or, Bool.or_eq_true, bits i hi, BitVec.getLsbD_shiftLeft]
    simp only [Bool.and_eq_true, decide_eq_true_eq, Bool.not_eq_true', decide_eq_false_iff_not,
      Nat.not_lt, hi, true_and]
    constructor
    · rintro (⟨n, hn, e⟩ | ⟨hki, hb⟩)
      · exact ⟨n, Set.mem_insert_of_mem _ hn, e⟩
      · have := (getLsbD_one _).mp hb
        exact ⟨_, Set.mem_insert _ _, by omega⟩
    · rintro ⟨n, rfl | hn, e⟩
      · exact .inr ⟨by omega, (getLsbD_one _).mpr (by omega)⟩
      · exact .inl ⟨n, hn, e⟩

/-- A number behind the window: nothing remembers it. -/
theorem represents_behind {w : ReplayWindow} {S : Set Nat} {s : BitVec 64}
    (top : IsGreatest S w.highestSeen.toNat)
    (bits : ∀ i < 64, (w.bitmap.getLsbD i = true ↔ ∃ n ∈ S, n + i = w.highestSeen.toNat))
    (hd : 64 ≤ w.highestSeen.toNat - s.toNat) (any : w.hasReceivedAny = true) :
    Represents w (insert s.toNat S) := by
  refine .some any ⟨Set.mem_insert_of_mem _ top.1, ?_⟩ fun i hi => ?_
  · rintro n (rfl | hn)
    · omega
    · exact top.2 hn
  · rw [bits i hi]
    refine ⟨fun ⟨n, hn, e⟩ => ⟨n, Set.mem_insert_of_mem _ hn, e⟩, ?_⟩
    rintro ⟨n, rfl | hn, e⟩
    · omega
    · exact ⟨n, hn, e⟩

/-- `accept` adds its number to the set. -/
theorem accept_represents {w : ReplayWindow} {S : Set Nat} (h : Represents w S) (s : BitVec 64) :
    Represents (replayWindowAccept w s) (insert s.toNat S) := by
  cases h with
  | empty =>
    rw [insert_empty_eq]
    exact represents_first s
  | some any top bits =>
    unfold replayWindowAccept
    simp only [any, Bool.not_true, Bool.false_eq_true, ↓reduceIte]
    split
    · rename_i hlt
      exact represents_ahead top bits hlt
    · rename_i hnlt
      have hle : s ≤ w.highestSeen := BitVec.not_lt.mp hnlt
      have hk : (w.highestSeen - s).toNat = w.highestSeen.toNat - s.toNat := by bv_omega
      split
      · rw [hk]
        exact represents_within top bits hle
      · rename_i hd
        exact represents_behind top bits (by rw [← hk]; exact Nat.le_of_not_lt hd) any

theorem seqSet_concat (l : List (BitVec 64)) (s : BitVec 64) :
    seqSet (l ++ [s]) = insert s.toNat (seqSet l) := by
  ext n
  simp only [seqSet, List.mem_append, List.mem_singleton, Set.mem_ofPred_eq, Set.mem_insert_iff]
  constructor
  · rintro ⟨x, hx | rfl, e⟩
    · exact .inr ⟨x, hx, e⟩
    · exact .inl e.symm
  · rintro (rfl | ⟨x, hx, e⟩)
    · exact ⟨s, .inr rfl, rfl⟩
    · exact ⟨x, .inl hx, e⟩

/-- The window that has accepted `l`, in any order and with any repetitions, represents the
set of `l`. -/
theorem acceptAll_represents (l : List (BitVec 64)) : Represents (acceptAll l) (seqSet l) := by
  induction l using List.reverseRecOn with
  | nil => rw [show seqSet [] = ∅ by simp [seqSet]]; exact .empty
  | append_singleton l s ih =>
    rw [acceptAll, List.foldl_append, seqSet_concat]
    exact accept_represents ih s

/-! ## Checking a number -/

/-- `check` decides whether a number is fresh. -/
theorem check_iff_fresh {w : ReplayWindow} {S : Set Nat} (h : Represents w S) (s : BitVec 64) :
    replayWindowCheck w s = true ↔ Fresh 64 S s.toNat := by
  cases h with
  | empty => exact ⟨fun _ => .inl rfl, fun _ => rfl⟩
  | some any top bits =>
    have hne : S ≠ ∅ := fun e => by rw [e] at top; exact top.1
    unfold replayWindowCheck Fresh
    simp only [any, Bool.not_true, Bool.false_eq_true, ↓reduceIte, hne, false_or]
    split
    · rename_i hlt
      exact ⟨fun _ => ⟨_, top, .inl hlt⟩, fun _ => rfl⟩
    · rename_i hnlt
      have hle : s.toNat ≤ w.highestSeen.toNat := BitVec.not_lt.mp hnlt
      have hk : (w.highestSeen - s).toNat = w.highestSeen.toNat - s.toNat := by bv_omega
      have hm : ∀ m, IsGreatest S m → m = w.highestSeen.toNat := fun m hm => hm.unique top
      split
      · rename_i hd
        have hd : 64 ≤ (w.highestSeen - s).toNat := hd
        simp only [Bool.false_eq_true, false_iff]
        rintro ⟨m, hg, h⟩
        have := hm m hg
        omega
      · rename_i hd
        have hd : (w.highestSeen - s).toNat < 64 := Nat.lt_of_not_le hd
        have hbit : ((w.bitmap >>> (w.highestSeen - s).toNat) &&& 1 == 0) = true ↔
            ¬ w.bitmap.getLsbD (w.highestSeen.toNat - s.toNat) = true := by
          rw [beq_iff_eq, and_one_eq_zero, BitVec.getLsbD_ushiftRight, hk, Nat.add_zero]
        rw [hbit, bits _ (by omega)]
        constructor
        · intro hn
          refine ⟨_, top, .inr ⟨by omega, fun hs => hn ⟨_, hs, by omega⟩⟩⟩
        · rintro ⟨m, hg, h⟩ ⟨n, hn, e⟩
          have := hm m hg
          rcases h with h | ⟨-, h⟩
          · omega
          · exact h (by rw [show s.toNat = n by omega]; exact hn)

/-- A receiver that calls `accept` on a number only when `check` has just returned 1 for it. -/
inductive CheckedRun : ReplayWindow → List (BitVec 64) → Prop
  | nil (w : ReplayWindow) : CheckedRun w []
  | cons {w : ReplayWindow} {s : BitVec 64} {l : List (BitVec 64)} (h : replayWindowCheck w s = true)
      (r : CheckedRun (replayWindowAccept w s) l) : CheckedRun w (s :: l)

/-- The abstract receiver accepts the same numbers. -/
theorem CheckedRun.run {w : ReplayWindow} {l : List (BitVec 64)} (r : CheckedRun w l) {S : Set Nat}
    (h : Represents w S) : Run 64 S (l.map BitVec.toNat) := by
  induction r generalizing S with
  | nil w => exact .nil S
  | cons hc r ih => exact .cons ((check_iff_fresh h _).mp hc) (ih (accept_represents h _))

theorem seqSet_congr {l m : List (BitVec 64)} (h : ∀ x, x ∈ l ↔ x ∈ m) : seqSet l = seqSet m := by
  ext n
  simp only [seqSet, Set.mem_ofPred_eq, h]

/-- The highest of a list of sequence numbers. -/
def maxSeq (l : List (BitVec 64)) : Nat := (l.map BitVec.toNat).foldr max 0

theorem le_maxSeq {l : List (BitVec 64)} {x : BitVec 64} (h : x ∈ l) : x.toNat ≤ maxSeq l := by
  induction l with
  | nil => cases h
  | cons y l ih =>
    rw [maxSeq, List.map_cons, List.foldr_cons]
    rcases List.mem_cons.mp h with rfl | h
    · exact Nat.le_max_left _ _
    · exact Nat.le_trans (ih h) (Nat.le_max_right _ _)

theorem maxSeq_mem {l : List (BitVec 64)} (h : l ≠ []) : maxSeq l ∈ seqSet l := by
  induction l with
  | nil => exact absurd rfl h
  | cons y l ih =>
    rw [maxSeq, List.map_cons, List.foldr_cons]
    by_cases hl : l = []
    · subst hl; exact ⟨y, List.mem_cons_self, by simp⟩
    · obtain ⟨x, hx, e⟩ := ih hl
      rcases Nat.le_total y.toNat (maxSeq l) with hle | hle
      · exact ⟨x, List.mem_cons_of_mem _ hx, by rw [e]; exact (Nat.max_eq_right hle).symm⟩
      · exact ⟨y, List.mem_cons_self, (Nat.max_eq_left hle).symm⟩

theorem isGreatest_maxSeq {l : List (BitVec 64)} (h : l ≠ []) : IsGreatest (seqSet l) (maxSeq l) :=
  ⟨maxSeq_mem h, fun _ ⟨_, hx, e⟩ => e ▸ le_maxSeq hx⟩

theorem mem_seqSet {l : List (BitVec 64)} {s : BitVec 64} : s.toNat ∈ seqSet l ↔ s ∈ l :=
  ⟨fun ⟨_, hx, e⟩ => BitVec.eq_of_toNat_eq e ▸ hx, fun h => ⟨s, h, rfl⟩⟩

/-- Freshness to a receiver that has accepted a list. -/
theorem fresh_seqSet (l : List (BitVec 64)) (s : BitVec 64) :
    Fresh 64 (seqSet l) s.toNat ↔ l = [] ∨ maxSeq l < s.toNat ∨ maxSeq l - s.toNat < 64 ∧ s ∉ l := by
  by_cases hl : l = []
  · subst hl
    exact ⟨fun _ => .inl rfl, fun _ => .inl (by simp [seqSet])⟩
  have hne : seqSet l ≠ ∅ := fun e => by have := maxSeq_mem hl; rw [e] at this; exact this
  have hg := isGreatest_maxSeq hl
  simp only [Fresh, hne, hl, false_or, mem_seqSet]
  exact ⟨fun ⟨m, hm, h⟩ => hm.unique hg ▸ h, fun h => ⟨_, hg, h⟩⟩

/-- The window is exact: after accepting any list `l` from the initial window, `check` returns 1
on exactly the numbers above `l` and those in the 64 below its highest that are not in `l`; the
window is a function of the set of `l`; and a receiver that accepts only what it has just checked
accepts nothing twice. -/
theorem window_exact :
    (∀ (l : List (BitVec 64)) (s : BitVec 64), replayWindowCheck (acceptAll l) s = true ↔
      l = [] ∨ maxSeq l < s.toNat ∨ maxSeq l - s.toNat < 64 ∧ s ∉ l) ∧
    (∀ l m : List (BitVec 64), (∀ x, x ∈ l ↔ x ∈ m) → acceptAll l = acceptAll m) ∧
    (∀ l : List (BitVec 64), CheckedRun replayWindowInit l → l.Nodup) := by
  refine ⟨fun l s => ?_, fun l m h => ?_, fun l r => ?_⟩
  · rw [check_iff_fresh (acceptAll_represents l), fresh_seqSet]
  · have hm := acceptAll_represents m
    rw [← seqSet_congr h] at hm
    exact (acceptAll_represents l).unique hm
  · exact (r.run .empty).nodup.of_map _

end ND.Proof.Replay
