import NanoDtls.Framework.Slice
import NanoDtls.Impl.Wire

/-!
# Views inside a buffer

`Inside S s`: the view `s` points into the view `S`, and its bytes are the
bytes there. Reads and views that stay inside a buffer do not fail.
-/

namespace ND.Proof

open ND.Impl

/-- `s` lies inside `S`, with the bytes that `S` has there. -/
def Inside (S s : Span) : Prop := ∃ k, s.off = S.off + k ∧ Slice S.bytes k s.bytes

theorem Inside.trans {S s t : Span} (hs : Inside S s) (ht : Inside s t) : Inside S t := by
  obtain ⟨k, hk, hs⟩ := hs
  obtain ⟨j, hj, ht⟩ := ht
  exact ⟨k + j, by rw [hj, hk, Nat.add_assoc], hs.trans ht⟩

theorem Inside.off_le {S s : Span} (h : Inside S s) : S.off ≤ s.off ∧ s.off + s.len ≤ S.off + S.len := by
  obtain ⟨k, hk, hle, -⟩ := h
  simp only [Span.len]
  omega

theorem Inside.len_le {S s : Span} (h : Inside S s) : s.len ≤ S.len := by
  have := h.off_le
  omega

/-- The view lies in a buffer, and denotes its bytes there. -/
def ViewOf (b : Bytes) (s : Span) : Prop := s.off + s.len ≤ b.length ∧ s.bytes = (b.drop s.off).take s.len

theorem Inside.viewOf {b : Bytes} {s : Span} (h : Inside (.ofBytes b) s) : ViewOf b s := by
  obtain ⟨k, hk, hs⟩ := h
  rw [ViewOf, show s.off = k from hk.trans (Nat.zero_add k)]
  exact ⟨hs.1, hs.2.symm⟩

theorem Inside.shift {S s : Span} (k : Nat) (h : Inside S s) : Inside (S.shift k) (s.shift k) := by
  obtain ⟨j, hj, hs⟩ := h
  exact ⟨j, by simp only [Span.shift, hj, Nat.add_assoc], hs⟩

theorem sub_eq {S : Span} {off n : Nat} (h : off + n ≤ S.len) :
    S.sub off n = .ok ⟨S.off + off, (S.bytes.drop off).take n⟩ := by
  rw [Span.sub, readSlice, if_pos (show off + n ≤ S.bytes.length from h)]
  rfl

/-- A view that is taken inside its span. -/
theorem sub_ensures {S : Span} {off n : Nat} (h : off + n ≤ S.len) :
    Ensures Status.ub (S.sub off n) fun s => s.off = S.off + off ∧ Slice S.bytes off s.bytes ∧ s.len = n := by
  rw [sub_eq h]
  refine ensures_ok ⟨rfl, slice_take_drop h, ?_⟩
  simp only [Span.len] at h ⊢
  rw [List.length_take, List.length_drop]
  omega

theorem readAt_ensures {buf : Bytes} {i : Nat} (h : i < buf.length) : Ensures Status.ub (readAt buf i) fun _ => True := by
  rw [readAt, List.getElem?_eq_getElem h]
  exact ensures_ok trivial

theorem readSlice_ensures {buf : Bytes} {off n : Nat} (h : off + n ≤ buf.length) :
    Ensures Status.ub (readSlice buf off n) fun b => Slice buf off b ∧ b.length = n := by
  rw [readSlice, if_pos h]
  refine ensures_ok ⟨slice_take_drop h, ?_⟩
  rw [List.length_take, List.length_drop]
  omega

theorem readUint_ensures {buf : Bytes} {off n : Nat} (h : off + n ≤ buf.length) :
    Ensures Status.ub (beNat <$> readSlice buf off n) fun _ => True :=
  (readSlice_ensures h).bind fun _ _ => ensures_ok trivial

theorem bytesN_ensures {n : Nat} {buf : Bytes} (h : buf.length = n) : Ensures Status.ub (bytesN n buf) fun b => b.1 = buf := by
  rw [bytesN, dif_pos h]
  exact ensures_ok rfl

end ND.Proof
