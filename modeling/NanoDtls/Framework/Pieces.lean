import Mathlib.Data.List.Basic

/-!
# Lists cut into pieces

A list of codes one after another, where each code says at its front how long
it is. `covers size good`: from the front of a list on, pieces of these sizes
lead exactly to its end. If `size` and `good` recognise the codes (`Pieces`),
these are the lists of codes (`Pieces.covers_iff`).
-/

namespace ND

variable {α β : Type _}

/-- Pieces of the sizes that `size` reads at their fronts, each of them `good`, lead to the end of a list. -/
def covers (size : List β → Nat) (good : List β → Bool) : Nat → List β → Bool
  | 0, _ => false
  | fuel + 1, l => l.isEmpty || (decide (size l ≤ l.length) && good l && covers size good fuel (l.drop (size l)))

/-- `size` and `good` recognise the codes at the front of a list. -/
structure Pieces (encode : α → List β) (size : List β → Nat) (good : List β → Bool) : Prop where
  ne_nil : ∀ a, encode a ≠ []
  size_eq : ∀ a rest, size (encode a ++ rest) = (encode a).length
  good_eq : ∀ a rest, good (encode a ++ rest) = true
  exists_eq : ∀ l, size l ≤ l.length → good l = true → ∃ a rest, l = encode a ++ rest

theorem Pieces.covers_iff {encode : α → List β} {size : List β → Nat} {good : List β → Bool}
    (h : Pieces encode size good) : ∀ (fuel : Nat) {l : List β}, l.length < fuel →
      (covers size good fuel l = true ↔ ∃ as : List α, l = as.flatMap encode)
  | 0, _, hf => absurd hf (Nat.not_lt_zero _)
  | fuel + 1, [], _ => by
    rw [covers]
    exact ⟨fun _ => ⟨[], rfl⟩, fun _ => rfl⟩
  | fuel + 1, b :: l, hf => by
    -- what is left after the piece at the front is shorter
    have hrest (a : α) (rest : List β) (hl : b :: l = encode a ++ rest) : (b :: l).drop (size (b :: l)) = rest ∧
        rest.length < fuel := by
      have hpos := List.length_pos_iff.mpr (h.ne_nil a)
      rw [hl] at hf ⊢
      rw [h.size_eq, List.drop_left]
      rw [List.length_append] at hf
      exact ⟨rfl, by omega⟩
    rw [covers, List.isEmpty_cons, Bool.false_or, Bool.and_eq_true, Bool.and_eq_true, decide_eq_true_eq]
    refine ⟨fun hc => ?_, fun hc => ?_⟩
    · obtain ⟨⟨hsize, hgood⟩, hcov⟩ := hc
      obtain ⟨a, rest, hl⟩ := h.exists_eq _ hsize hgood
      obtain ⟨hdrop, hlt⟩ := hrest a rest hl
      rw [hdrop] at hcov
      obtain ⟨as, has⟩ := (h.covers_iff fuel hlt).mp hcov
      exact ⟨a :: as, by rw [List.flatMap_cons, ← has, hl]⟩
    · obtain ⟨as, has⟩ := hc
      cases as with
      | nil => cases has
      | cons a as =>
        rw [List.flatMap_cons] at has
        obtain ⟨hdrop, hlt⟩ := hrest a _ has
        refine ⟨⟨?_, ?_⟩, ?_⟩
        · rw [has, h.size_eq, List.length_append]
          exact Nat.le_add_right _ _
        · rw [has, h.good_eq]
        · rw [hdrop]
          exact (h.covers_iff fuel hlt).mpr ⟨as, rfl⟩

end ND
