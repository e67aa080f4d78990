import Mathlib.Order.Bounds.Basic
import Mathlib.Order.Lattice.Nat

/-!
# What an anti-replay window is for

A receiver that has accepted the numbers `S` and remembers the last `W` below
the highest takes a number as fresh (`Fresh`) if nothing was accepted yet, if
it is a new highest, or if it is remembered and was not accepted. `Run` is a
receiver that accepts only fresh numbers: it accepts none twice
(`Run.nodup`).
-/

namespace ND.Spec.Replay

variable {W : Nat} {S : Set Nat} {s : Nat}

/-- `s` is fresh to a receiver that has accepted `S`. -/
def Fresh (W : Nat) (S : Set Nat) (s : Nat) : Prop :=
  S = ∅ ∨ ∃ m, IsGreatest S m ∧ (m < s ∨ m - s < W ∧ s ∉ S)

theorem Fresh.notMem (h : Fresh W S s) : s ∉ S := by
  rintro hs
  rcases h with rfl | ⟨m, hm, hlt | ⟨-, hn⟩⟩
  · exact hs
  · exact absurd (hm.2 hs) (by omega)
  · exact hn hs

/-- `l` is accepted in turn, each number fresh to a receiver that has accepted `S`
and the numbers before it. -/
inductive Run (W : Nat) : Set Nat → List Nat → Prop
  | nil (S : Set Nat) : Run W S []
  | cons {S : Set Nat} {s : Nat} {l : List Nat} (h : Fresh W S s) (r : Run W (insert s S) l) :
      Run W S (s :: l)

theorem Run.disjoint {l : List Nat} (r : Run W S l) : ∀ x ∈ l, x ∉ S := by
  induction r with
  | nil S => simp
  | cons h r ih =>
    intro x hx
    rcases List.mem_cons.mp hx with rfl | hx
    · exact h.notMem
    · exact fun hS => ih x hx (Set.mem_insert_of_mem _ hS)

/-- No number is accepted twice. -/
theorem Run.nodup {l : List Nat} (r : Run W S l) : l.Nodup := by
  induction r with
  | nil S => exact List.nodup_nil
  | cons h r ih => exact List.nodup_cons.mpr ⟨fun hx => r.disjoint _ hx (Set.mem_insert _ _), ih⟩

end ND.Spec.Replay
