import Mathlib.Data.List.Basic

/-!
# Slices of a list

`Slice l off s`: the list `s` is what `l` has from `off` on. A slice of a
slice is a slice (`Slice.trans`), and a slice has the elements of the list
(`Slice.getElem?_eq`). `patch l off s` is `l` with `s` written over it from
`off` on.
-/

namespace ND

variable {α : Type _}

/-- `s` is the `s.length` elements of `l` from `off` on. -/
def Slice (l : List α) (off : Nat) (s : List α) : Prop := off + s.length ≤ l.length ∧ (l.drop off).take s.length = s

theorem slice_take_drop {l : List α} {off n : Nat} (h : off + n ≤ l.length) : Slice l off ((l.drop off).take n) := by
  have hlen : ((l.drop off).take n).length = n := by
    rw [List.length_take, List.length_drop]
    omega
  exact ⟨by rwa [hlen], by rw [hlen]⟩

theorem Slice.getElem?_eq {l s : List α} {off i : Nat} (h : Slice l off s) (hi : i < s.length) : s[i]? = l[off + i]? := by
  rw [← h.2, List.getElem?_take_of_lt hi, List.getElem?_drop]

/-- A list is a slice if it has the same elements. -/
theorem slice_of_getElem? {l s : List α} {off : Nat} (hle : off + s.length ≤ l.length)
    (h : ∀ i < s.length, l[off + i]? = s[i]?) : Slice l off s := by
  refine ⟨hle, List.ext_getElem? fun i => ?_⟩
  by_cases hi : i < s.length
  · rw [List.getElem?_take_of_lt hi, List.getElem?_drop, h i hi]
  · rw [List.getElem?_eq_none (by rw [List.length_take]; omega), List.getElem?_eq_none (by omega)]

theorem Slice.trans {l s t : List α} {off off' : Nat} (hs : Slice l off s) (ht : Slice s off' t) :
    Slice l (off + off') t := by
  have := hs.1
  have := ht.1
  refine slice_of_getElem? (by omega) fun i hi => ?_
  rw [ht.getElem?_eq hi, hs.getElem?_eq (by omega), Nat.add_assoc]

/-! ## Writing into a list -/

/-- `l` with `s` in the place of its elements from `off` on. -/
def patch (l : List α) (off : Nat) (s : List α) : List α := l.take off ++ s ++ l.drop (off + s.length)

theorem length_patch {l s : List α} {off : Nat} (h : off + s.length ≤ l.length) : (patch l off s).length = l.length := by
  rw [patch, List.length_append, List.length_append, List.length_take, List.length_drop]
  omega

theorem patch_append {a b s : List α} {off : Nat} (h : a.length = off) :
    patch (a ++ b) off s = a ++ s ++ b.drop s.length := by
  rw [patch, List.take_left' h, ← h, List.drop_append, List.drop_eq_nil_of_le (by omega), List.nil_append,
    Nat.add_sub_cancel_left]

theorem getElem?_patch_of_mem {l s : List α} {off k : Nat} (h : off + s.length ≤ l.length) (hle : off ≤ k)
    (hlt : k < off + s.length) : (patch l off s)[k]? = s[k - off]? := by
  have hoff : (l.take off).length = off := by rw [List.length_take]; omega
  rw [patch, List.append_assoc, List.getElem?_append_right (by omega), hoff, List.getElem?_append_left (by omega)]

theorem getElem?_patch_of_not_mem {l s : List α} {off k : Nat} (h : off + s.length ≤ l.length)
    (hk : ¬ (off ≤ k ∧ k < off + s.length)) : (patch l off s)[k]? = l[k]? := by
  have hoff : (l.take off).length = off := by rw [List.length_take]; omega
  rw [patch, List.append_assoc]
  by_cases hlt : k < off
  · rw [List.getElem?_append_left (by omega), List.getElem?_take_of_lt hlt]
  · rw [List.getElem?_append_right (by omega), hoff, List.getElem?_append_right (by omega), List.getElem?_drop]
    congr 1
    omega

end ND
