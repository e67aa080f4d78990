import NanoDtls.Framework.Slice
import Mathlib.Order.Interval.Set.Defs
import Mathlib.Order.Nat

/-!
# Lists that are filled in piece by piece

A list is filled with pieces of a reference list, and a list of marks says
where. On the positions written so far the list agrees with the reference
(`AgreesOn`), and the marks are those of these positions (`Marked`). Writing
one more slice adds its interval to both, clearing marks takes one away.
-/

namespace ND

variable {α β : Type _}

/-- `l` has the elements of `ref` on `S`. -/
def AgreesOn (l ref : List α) (S : Set Nat) : Prop := ∀ k ∈ S, l[k]? = ref[k]?

/-- `marks` has `on` at the positions in `S`, and `off` at the others. -/
def Marked (off on : β) (marks : List β) (S : Set Nat) : Prop :=
  ∀ k < marks.length, (k ∈ S → marks[k]? = some on) ∧ (k ∉ S → marks[k]? = some off)

theorem agreesOn_empty (l ref : List α) : AgreesOn l ref ∅ := fun _ hk => hk.elim

theorem AgreesOn.patch {l ref s : List α} {S : Set Nat} {i : Nat} (h : AgreesOn l ref S) (hs : Slice ref i s)
    (hle : i + s.length ≤ l.length) : AgreesOn (patch l i s) ref (S ∪ Set.Ico i (i + s.length)) := by
  intro k hk
  by_cases hin : i ≤ k ∧ k < i + s.length
  · rw [getElem?_patch_of_mem hle hin.1 hin.2, hs.getElem?_eq (by omega), show i + (k - i) = k by omega]
  · rw [getElem?_patch_of_not_mem hle hin]
    rcases hk with hk | hk
    · exact h k hk
    · exact absurd hk hin

theorem marked_replicate (off on : β) (n : Nat) : Marked off on (List.replicate n off) ∅ := by
  intro k hk
  rw [List.length_replicate] at hk
  exact ⟨fun h => h.elim, fun _ => by rw [List.getElem?_replicate, if_pos hk]⟩

theorem Marked.patch {off on : β} {marks : List β} {S : Set Nat} {i n : Nat} (h : Marked off on marks S)
    (hle : i + n ≤ marks.length) : Marked off on (patch marks i (List.replicate n on)) (S ∪ Set.Ico i (i + n)) := by
  have hlen : i + (List.replicate n on).length ≤ marks.length := by rwa [List.length_replicate]
  intro k hk
  rw [length_patch hlen] at hk
  by_cases hin : i ≤ k ∧ k < i + n
  · rw [getElem?_patch_of_mem hlen hin.1 (by rw [List.length_replicate]; exact hin.2), List.getElem?_replicate,
      if_pos (by omega)]
    exact ⟨fun _ => rfl, fun hno => absurd (.inr hin) hno⟩
  · rw [getElem?_patch_of_not_mem hlen (by rwa [List.length_replicate])]
    refine ⟨fun hS => (h k hk).1 ?_, fun hS => (h k hk).2 fun hk => hS (.inl hk)⟩
    rcases hS with hS | hS
    · exact hS
    · exact absurd hS hin

theorem Marked.clear {off on : β} {marks : List β} {S : Set Nat} {i n : Nat} (h : Marked off on marks S)
    (hle : i + n ≤ marks.length) : Marked off on (ND.patch marks i (List.replicate n off)) (S \ Set.Ico i (i + n)) := by
  have hlen : i + (List.replicate n off).length ≤ marks.length := by rwa [List.length_replicate]
  intro k hk
  rw [length_patch hlen] at hk
  by_cases hin : i ≤ k ∧ k < i + n
  · rw [getElem?_patch_of_mem hlen hin.1 (by rw [List.length_replicate]; exact hin.2), List.getElem?_replicate,
      if_pos (by omega)]
    exact ⟨fun hS => absurd hin hS.2, fun _ => rfl⟩
  · rw [getElem?_patch_of_not_mem hlen (by rwa [List.length_replicate])]
    exact ⟨fun hS => (h k hk).1 hS.1, fun hS => (h k hk).2 fun hk => hS ⟨hk, hin⟩⟩

/-- The marks are determined by their positions. -/
theorem Marked.ext {off on : β} {marks marks' : List β} {S : Set Nat} (h : Marked off on marks S) (h' : Marked off on marks' S)
    (hlen : marks.length = marks'.length) : marks = marks' := by
  apply List.ext_getElem?
  intro k
  by_cases hk : k < marks.length
  · by_cases hS : k ∈ S
    · rw [(h k hk).1 hS, (h' k (by omega)).1 hS]
    · rw [(h k hk).2 hS, (h' k (by omega)).2 hS]
  · rw [List.getElem?_eq_none (by omega), List.getElem?_eq_none (by omega)]

end ND
