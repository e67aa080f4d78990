import NanoDtls.Framework.Checked
import Mathlib.Algebra.Group.Defs
import Mathlib.Algebra.Group.Basic
import Mathlib.Data.Nat.Bits
import Mathlib.Tactic.Ring

/-!
# The binary method

Powers by squaring, from the low bit of the exponent up, on representations of
the elements of a monoid: `acc` collects the powers `x ^ 2^i` whose bit is set
and `sq` runs through them. The operations may fail; on representations they
do not (`binaryMethod_ok`).
-/

namespace ND

variable {ε σ M : Type _} [Monoid M]

/-- One turn: multiply in the current square if the bit is set, then square. -/
def binaryStep (mul : σ → σ → Except ε σ) (square : σ → Except ε σ) (bit : Nat → Bool) (s : σ × σ) (i : Nat) :
    Except ε (σ × σ) := do
  let acc ← (if bit i then mul s.1 s.2 else .ok s.1)
  let sq ← square s.2
  return (acc, sq)

theorem mod_two_pow_succ (k n : Nat) : k % 2 ^ (n + 1) = k % 2 ^ n + 2 ^ n * (k.testBit n).toNat := by
  rw [Nat.mod_pow_succ, Nat.testBit_eq_decide_div_mod_eq]
  rcases Nat.mod_two_eq_zero_or_one (k / 2 ^ n) with h | h <;> simp [h]

variable {mul : σ → σ → Except ε σ} {square : σ → Except ε σ} {rep : σ → M → Prop}

/-- After `n` turns the accumulator is the power by the low `n` bits of `k`. -/
theorem binaryMethod_ok (hmul : ∀ {a b x y}, rep a x → rep b y → ∃ c, mul a b = .ok c ∧ rep c (x * y))
    (hsq : ∀ {a x}, rep a x → ∃ c, square a = .ok c ∧ rep c (x * x)) {one base : σ} {x : M}
    (h1 : rep one 1) (hx : rep base x) (k : Nat) : ∀ n, ∃ s,
      (List.range n).foldlM (binaryStep mul square k.testBit) (one, base) = .ok s ∧
        rep s.1 (x ^ (k % 2 ^ n)) ∧ rep s.2 (x ^ 2 ^ n)
  | 0 => ⟨(one, base), rfl, by simpa [Nat.mod_one] using h1, by simpa using hx⟩
  | n + 1 => by
    obtain ⟨s, hs, hacc, hbase⟩ := binaryMethod_ok hmul hsq h1 hx k n
    obtain ⟨sq, hsq', hsqr⟩ := hsq hbase
    obtain ⟨acc, hacc', haccr⟩ : ∃ acc, (if k.testBit n then mul s.1 s.2 else .ok s.1) = .ok acc ∧
        rep acc (x ^ (k % 2 ^ (n + 1))) := by
      rw [mod_two_pow_succ]
      cases k.testBit n with
      | false => exact ⟨s.1, rfl, by simpa using hacc⟩
      | true =>
        obtain ⟨c, hc, hr⟩ := hmul hacc hbase
        exact ⟨c, hc, by simpa [pow_add] using hr⟩
    refine ⟨(acc, sq), ?_, haccr, by rwa [Nat.pow_succ, Nat.mul_two, pow_add]⟩
    rw [List.range_succ, List.foldlM_append, hs, ok_bind, List.foldlM_cons, binaryStep, hacc', ok_bind, hsq']
    rfl

end ND
