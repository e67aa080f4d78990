import Mathlib.Logic.Basic

/-!
# What a system cannot avoid

`Inevitably step P s`: whatever steps are taken from `s`, a state with `P` is
reached after finitely many, and no run gets stuck before. The rule
(`inevitably_of_rank`): an invariant with a rank, that allows a step, and that
every step keeps at a lower rank unless it reaches `P`.
-/

namespace ND

variable {σ : Type _}

inductive Inevitably (step : σ → σ → Prop) (P : σ → Prop) : σ → Prop
  | now {s : σ} : P s → Inevitably step P s
  | later {s : σ} : (∃ s', step s s') → (∀ s', step s s' → Inevitably step P s') → Inevitably step P s

theorem inevitably_of_rank {step : σ → σ → Prop} {P : σ → Prop} {Inv : Nat → σ → Prop}
    (hprogress : ∀ k s, Inv k s → ∃ s', step s s')
    (hstep : ∀ k s s', Inv k s → step s s' → P s' ∨ ∃ k' < k, Inv k' s') (k : Nat) :
    ∀ s, Inv k s → Inevitably step P s := by
  induction k using Nat.strongRecOn with
  | ind k ih =>
    intro s hs
    refine .later (hprogress k s hs) ?_
    intro s' hss
    rcases hstep k s s' hs hss with hP | ⟨k', hlt, hs'⟩
    · exact .now hP
    · exact ih k' hlt s' hs'

end ND
