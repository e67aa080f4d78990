import Mathlib.Data.List.Basic

/-!
# Streams that are taken in blocks

`chunks n l` is the list `l` in pieces of `n`, the last of which may be
shorter; every list is some blocks of `n` and a rest (`exists_blocks`).
A `Buffered` state takes one element after the other and steps when it has a
block of them. What it has after a list is the step over the blocks of the
list, and the rest in its buffer (`feedAll_blocks_append`); where the list is
cut into pieces on the way does not matter, since feeding a list is a fold
over it.
-/

namespace ND

variable {α σ : Type _} {n : Nat}

/-! ## Chunks -/

/-- The list in chunks of `n`. -/
def chunks (n : Nat) (l : List α) : List (List α) :=
  (List.range ((l.length + (n - 1)) / n)).map fun i => (l.drop (n * i)).take n

theorem chunks_nil (n : Nat) : chunks n ([] : List α) = [] := by
  have hcount : (([] : List α).length + (n - 1)) / n = 0 := by
    rcases Nat.eq_zero_or_pos n with rfl | hn
    · exact Nat.div_zero _
    · exact Nat.div_eq_of_lt (by rw [List.length_nil]; omega)
  rw [chunks, hcount]
  rfl

theorem chunks_of_lt {l : List α} (h0 : l ≠ []) (h : l.length < n) : chunks n l = [l] := by
  have hpos := List.length_pos_iff.mpr h0
  have hcount : (l.length + (n - 1)) / n = 1 :=
    Nat.div_eq_of_lt_le (by omega) (by omega)
  rw [chunks, hcount, List.range_one, List.map_singleton, Nat.mul_zero, List.drop_zero, List.take_of_length_le (by omega)]

theorem chunks_append (hn : 0 < n) {b : List α} (hb : b.length = n) (l : List α) : chunks n (b ++ l) = b :: chunks n l := by
  have hcount : ((b ++ l).length + (n - 1)) / n = (l.length + (n - 1)) / n + 1 := by
    rw [List.length_append, hb, show n + l.length + (n - 1) = l.length + (n - 1) + n by omega, Nat.add_div_right _ hn]
  rw [chunks, hcount, List.range_succ_eq_map, List.map_cons, List.map_map, Nat.mul_zero, List.drop_zero, ← hb, List.take_left]
  refine congrArg (b :: ·) (List.map_congr_left fun i _ => ?_)
  simp only [Function.comp, Nat.succ_eq_add_one]
  rw [Nat.mul_succ, Nat.add_comm (b.length * i), ← List.drop_drop, List.drop_left]

theorem chunks_flatten_append (hn : 0 < n) : ∀ {bs : List (List α)}, (∀ b ∈ bs, b.length = n) → ∀ l,
    chunks n (bs.flatten ++ l) = bs ++ chunks n l
  | [], _, l => rfl
  | b :: bs, h, l => by
    rw [List.flatten_cons, List.append_assoc, chunks_append hn (h b List.mem_cons_self),
      chunks_flatten_append hn (fun c hc => h c (List.mem_cons_of_mem _ hc)), List.cons_append]

/-- Every list is some blocks and a rest. -/
theorem exists_blocks (hn : 0 < n) (l : List α) :
    ∃ (bs : List (List α)) (rest : List α), l = bs.flatten ++ rest ∧ (∀ b ∈ bs, b.length = n) ∧ rest.length < n := by
  induction hlen : l.length using Nat.strongRecOn generalizing l with
  | ind k ih =>
    by_cases hlt : l.length < n
    · exact ⟨[], l, rfl, fun b hb => absurd hb List.not_mem_nil, hlt⟩
    · obtain ⟨bs, rest, hdrop, hbs, hrest⟩ := ih (l.drop n).length (by rw [List.length_drop]; omega) (l.drop n) rfl
      refine ⟨l.take n :: bs, rest, ?_, ?_, hrest⟩
      · rw [List.flatten_cons, List.append_assoc, ← hdrop, List.take_append_drop]
      · rw [List.forall_mem_cons, List.length_take]
        exact ⟨by omega, hbs⟩

/-- A list of whole blocks is its chunks. -/
theorem chunks_whole (hn : 0 < n) {l : List α} (hl : l.length % n = 0) :
    (chunks n l).flatten = l ∧ (∀ b ∈ chunks n l, b.length = n) ∧ (chunks n l).length = l.length / n := by
  obtain ⟨bs, rest, rfl, hbs, hrest⟩ := exists_blocks hn l
  have hlen : bs.flatten.length = bs.length * n := by
    rw [List.length_flatten, List.eq_replicate_of_mem (a := n) (List.forall_mem_map.mpr hbs), List.sum_replicate_nat,
      List.length_map]
  rw [List.length_append, hlen, Nat.mul_add_mod_self_right, Nat.mod_eq_of_lt hrest] at hl
  obtain rfl : rest = [] := List.length_eq_zero_iff.mp hl
  rw [chunks_flatten_append hn hbs, chunks_nil, List.append_nil, List.append_nil, hlen, Nat.mul_div_cancel _ hn]
  exact ⟨rfl, hbs, rfl⟩

/-! ## Streams -/

/-- A state, and the elements that do not fill a block yet. -/
structure Buffered (σ α : Type _) where
  state : σ
  buf : List α

namespace Buffered

variable (n) (step : σ → List α → σ)

/-- One element into the buffer; a step when that fills it. -/
def feed (s : Buffered σ α) (a : α) : Buffered σ α :=
  if (s.buf ++ [a]).length = n then ⟨step s.state (s.buf ++ [a]), []⟩ else ⟨s.state, s.buf ++ [a]⟩

def feedAll (s : Buffered σ α) (l : List α) : Buffered σ α := l.foldl (feed n step) s

variable {n} {step}

theorem feedAll_nil (s : Buffered σ α) : feedAll n step s [] = s := rfl

theorem feedAll_append (s : Buffered σ α) (l m : List α) :
    feedAll n step s (l ++ m) = feedAll n step (feedAll n step s l) m := List.foldl_append

/-- The buffer holds what is left of the elements so far, once the blocks are taken. -/
theorem length_buf_feedAll : ∀ (l : List α) {s : Buffered σ α}, s.buf.length < n →
    (feedAll n step s l).buf.length = (s.buf.length + l.length) % n
  | [], s, h => (Nat.mod_eq_of_lt h).symm
  | a :: l, s, h => by
    rw [feedAll, List.foldl_cons, ← feedAll, feed, List.length_append, List.length_singleton, List.length_cons]
    split
    · rename_i hfull
      rw [length_buf_feedAll l (by exact Nat.zero_lt_of_lt h), List.length_nil, Nat.zero_add, Nat.add_comm l.length, ← Nat.add_assoc,
        hfull, Nat.add_mod_left]
    · rw [length_buf_feedAll l (by simp only [List.length_append, List.length_singleton]; omega), List.length_append,
        List.length_singleton, Nat.add_assoc, Nat.add_comm 1]

/-- The buffer never holds a whole block. -/
theorem feedAll_room (l : List α) {s : Buffered σ α} (h : s.buf.length < n) : (feedAll n step s l).buf.length < n := by
  rw [length_buf_feedAll l h]
  exact Nat.mod_lt _ (Nat.zero_lt_of_lt h)

/-- Elements that fill the buffer at most. -/
theorem feedAll_of_le : ∀ (l : List α) (s : Buffered σ α), l ≠ [] → s.buf.length + l.length ≤ n →
    feedAll n step s l = if (s.buf ++ l).length = n then ⟨step s.state (s.buf ++ l), []⟩ else ⟨s.state, s.buf ++ l⟩
  | [a], s, _, _ => rfl
  | a :: b :: l, s, _, h => by
    simp only [List.length_cons] at h
    have hfeed : feed n step s a = ⟨s.state, s.buf ++ [a]⟩ := by
      rw [feed, if_neg]
      simp only [List.length_append, List.length_singleton]
      omega
    rw [feedAll, List.foldl_cons, ← feedAll, hfeed, feedAll_of_le (b :: l) _ (List.cons_ne_nil _ _)
      (by simp only [List.length_append, List.length_cons, List.length_nil]; omega)]
    simp only [List.append_assoc, List.singleton_append]

theorem feedAll_block (hn : 0 < n) (s : σ) {b : List α} (hb : b.length = n) :
    feedAll n step ⟨s, []⟩ b = ⟨step s b, []⟩ := by
  rw [feedAll_of_le b _ (List.ne_nil_of_length_pos (by omega)) (by simp [hb]), List.nil_append, if_pos hb]

theorem feedAll_blocks (hn : 0 < n) : ∀ {bs : List (List α)} (s : σ), (∀ b ∈ bs, b.length = n) →
    feedAll n step ⟨s, []⟩ bs.flatten = ⟨bs.foldl step s, []⟩
  | [], s, _ => rfl
  | b :: bs, s, h => by
    rw [List.flatten_cons, feedAll_append, feedAll_block hn s (h b List.mem_cons_self),
      feedAll_blocks hn (step s b) fun c hc => h c (List.mem_cons_of_mem _ hc), List.foldl_cons]

/-- After some blocks and a rest: the step over the blocks, and the rest. -/
theorem feedAll_blocks_append (s : σ) {bs : List (List α)} {rest : List α} (hbs : ∀ b ∈ bs, b.length = n)
    (hrest : rest.length < n) : feedAll n step ⟨s, []⟩ (bs.flatten ++ rest) = ⟨bs.foldl step s, rest⟩ := by
  rw [feedAll_append, feedAll_blocks (Nat.zero_lt_of_lt hrest) s hbs]
  rcases rest with _ | ⟨a, rest⟩
  · rfl
  · rw [feedAll_of_le _ _ (List.cons_ne_nil _ _) (by simpa using Nat.le_of_lt hrest), List.nil_append, if_neg (by omega)]

/-- After a list of whole blocks: the step over its chunks, and nothing buffered. -/
theorem feedAll_chunks (hn : 0 < n) (s : σ) {l : List α} (hl : l.length % n = 0) :
    feedAll n step ⟨s, []⟩ l = ⟨(chunks n l).foldl step s, []⟩ := by
  obtain ⟨bs, rest, rfl, hbs, hrest⟩ := exists_blocks hn l
  have hlen : (feedAll n step ⟨s, []⟩ (bs.flatten ++ rest)).buf.length = 0 := by
    rw [length_buf_feedAll _ hn, List.length_nil, Nat.zero_add, hl]
  rw [feedAll_blocks_append s hbs hrest] at hlen ⊢
  obtain rfl : rest = [] := List.length_eq_zero_iff.mp hlen
  rw [chunks_flatten_append hn hbs, chunks_nil, List.append_nil]

end Buffered

end ND
