import Mathlib.Tactic.Ring

/-!
# Arithmetic that may not fit

A computation on unsigned integers of 32 and 64 bits, written once over
`Words`, is run with results that wrap around, as machines do
(`Words.wrapping`), and with an error in the place of each wrap
(`Words.checked`). If the second run succeeds, no result of the computation
was too large for its type. Results that fit are stored as they are in both
(`Words.Lawful`), so one proof serves the two runs.
-/

namespace ND

/-- How results of 32 and of 64 bits are stored. -/
structure Words (m : Type → Type) where
  u32 : Nat → m Nat
  u64 : Nat → m Nat

namespace Words

/-- What does not fit wraps around. -/
def wrapping : Words Id := ⟨(· % 2 ^ 32), (· % 2 ^ 64)⟩

/-- What does not fit is an error. -/
def checked {ε : Type} (e : ε) : Words (Except ε) where
  u32 v := if v < 2 ^ 32 then .ok v else .error e
  u64 v := if v < 2 ^ 64 then .ok v else .error e

/-- What fits is stored as it is. -/
structure Lawful {m : Type → Type} [Monad m] (W : Words m) : Prop where
  u32 : ∀ {v}, v < 2 ^ 32 → W.u32 v = pure v
  u64 : ∀ {v}, v < 2 ^ 64 → W.u64 v = pure v

theorem lawful_wrapping : wrapping.Lawful := ⟨Nat.mod_eq_of_lt, Nat.mod_eq_of_lt⟩

theorem lawful_checked {ε : Type} (e : ε) : (checked e).Lawful := ⟨fun h => if_pos h, fun h => if_pos h⟩

end Words

end ND
