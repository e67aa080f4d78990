import NanoDtls.Framework.Contract

/-!
# Programs on two levels

A program on a lower level makes calls of its own beside those of a program on
a higher level. `proj` says which of its calls are calls of the higher level.
What the lower level learns by its own calls may be a parameter on the higher
one, so the program there is a family, indexed by it. `Realizes proj X x`: what
is seen of a run of `X` is a run of some member of the family with the same
result, and every run of every member is seen of some run of `X`. The rules
follow the ways to build an action.
-/

namespace ND

variable {Op Op' : Type} {Res : Op → Type} {Res' : Op' → Type} {ε α β ι κ : Type}
  {proj : Prog.Event Op Res → Option (Prog.Event Op' Res')}

structure Realizes (proj : Prog.Event Op Res → Option (Prog.Event Op' Res')) (X : Action Op Res ε α)
    (x : ι → Action Op' Res' ε α) : Prop where
  sound : ∀ {t : List (Prog.Event Op Res)} {r : Except ε α}, Prog.Yields (ExceptT.run X) t r →
    ∃ i, Prog.Yields (ExceptT.run (x i)) (t.filterMap proj) r
  complete : ∀ (i : ι) {t : List (Prog.Event Op' Res')} {r : Except ε α}, Prog.Yields (ExceptT.run (x i)) t r →
    ∃ t', t'.filterMap proj = t ∧ Prog.Yields (ExceptT.run X) t' r

/-- The same for a program without a parameter. -/
abbrev Refines (proj : Prog.Event Op Res → Option (Prog.Event Op' Res')) (X : Action Op Res ε α) (x : Action Op' Res' ε α) : Prop :=
  Realizes proj X fun _ : Unit => x

namespace Realizes

variable {X : Action Op Res ε α} {F : α → Action Op Res ε β}

/-- Another family with the same members. -/
theorem congr {x : ι → Action Op' Res' ε α} (h : Realizes proj X x) {y : κ → Action Op' Res' ε α} (hx : ∀ i, ∃ k, y k = x i)
    (hy : ∀ k, ∃ i, y k = x i) : Realizes proj X y where
  sound hX := by
    obtain ⟨i, hi⟩ := h.sound hX
    obtain ⟨k, hk⟩ := hx i
    exact ⟨k, by rwa [hk]⟩
  complete k _ _ hk := by
    obtain ⟨i, hi⟩ := hy k
    exact h.complete i (by rwa [← hi])

/-- Two actions in turn, with the parameters of both. -/
theorem bind [Nonempty κ] {x : ι → Action Op' Res' ε α} {f : α → κ → Action Op' Res' ε β} (hX : Realizes proj X x)
    (hF : ∀ a, Realizes proj (F a) (f a)) : Realizes proj (X >>= F) fun ik : ι × κ => x ik.1 >>= fun a => f a ik.2 where
  sound hrun := by
    rcases Action.yields_bind_iff.mp hrun with ⟨e, rfl, he⟩ | ⟨t₁, t₂, a, rfl, h₁, h₂⟩
    · obtain ⟨i, hi⟩ := hX.sound he
      exact ⟨(i, Classical.arbitrary κ), Action.yields_bind_iff.mpr (.inl ⟨e, rfl, hi⟩)⟩
    · obtain ⟨i, hi⟩ := hX.sound h₁
      obtain ⟨k, hk⟩ := (hF a).sound h₂
      exact ⟨(i, k), Action.yields_bind_iff.mpr (.inr ⟨_, _, a, List.filterMap_append, hi, hk⟩)⟩
  complete ik t r hrun := by
    rcases Action.yields_bind_iff.mp hrun with ⟨e, rfl, he⟩ | ⟨t₁, t₂, a, rfl, h₁, h₂⟩
    · obtain ⟨t', ht, h'⟩ := hX.complete ik.1 he
      exact ⟨t', ht, Action.yields_bind_iff.mpr (.inl ⟨e, rfl, h'⟩)⟩
    · obtain ⟨t₁', rfl, h₁'⟩ := hX.complete ik.1 h₁
      obtain ⟨t₂', rfl, h₂'⟩ := (hF a).complete ik.2 h₂
      exact ⟨t₁' ++ t₂', List.filterMap_append, Action.yields_bind_iff.mpr (.inr ⟨t₁', t₂', a, rfl, h₁', h₂'⟩)⟩

/-- The second action has no parameter. -/
theorem bind_fixed {x : ι → Action Op' Res' ε α} {f : α → Action Op' Res' ε β} (hX : Realizes proj X x)
    (hF : ∀ a, Refines proj (F a) (f a)) : Realizes proj (X >>= F) fun i => x i >>= f :=
  (hX.bind hF).congr (fun ik => ⟨ik.1, rfl⟩) fun i => ⟨(i, ()), rfl⟩

end Realizes

namespace Refines

variable {X : Action Op Res ε α} {x : Action Op' Res' ε α} {F : α → Action Op Res ε β}

/-- The first action has no parameter. -/
theorem bind [Nonempty ι] {f : α → ι → Action Op' Res' ε β} (hX : Refines proj X x) (hF : ∀ a, Realizes proj (F a) (f a)) :
    Realizes proj (X >>= F) fun i => x >>= fun a => f a i :=
  (Realizes.bind hX hF).congr (fun ik => ⟨ik.2, rfl⟩) fun i => ⟨((), i), rfl⟩

end Refines

/-- A computation without calls is the same on both levels. -/
theorem refines_check (e : Except ε α) : Refines proj (Action.check e : Action Op Res ε α) (Action.check e) where
  sound h := by
    cases h
    exact ⟨(), .ret e⟩
  complete _ _ _ h := by
    cases h
    exact ⟨[], rfl, .ret e⟩

theorem refines_pure (a : α) : Refines proj (pure a : Action Op Res ε α) (pure a) := refines_check (.ok a)

/-- A program that the higher level does not see: its result is a parameter there. -/
theorem realizes_lift {p : Prog Op Res α} (hunseen : ∀ {t a}, Prog.Yields p t a → t.filterMap proj = [])
    (hall : ∀ a, ∃ t, Prog.Yields p t a) : Realizes proj (ExceptT.lift p : Action Op Res ε α) fun a => pure a where
  sound h := by
    obtain ⟨a, rfl, ha⟩ := Action.yields_lift_iff.mp h
    rw [hunseen ha]
    exact ⟨a, .ret _⟩
  complete a _ _ h := by
    cases h
    obtain ⟨t, ht⟩ := hall a
    exact ⟨t, hunseen ht, Action.yields_lift_iff.mpr ⟨a, rfl, ht⟩⟩

/-- A call that the higher level does not see, and whose answer does not matter. -/
theorem realizes_unseen {o : Op} (hproj : ∀ r, proj ⟨o, r⟩ = none) (r₀ : Res o) {X : Action Op Res ε α}
    {x : ι → Action Op' Res' ε α} (hX : Realizes proj X x) : Realizes proj (Action.call o >>= fun _ => X) x where
  sound h := by
    obtain ⟨e, -, he⟩ | ⟨t₁, t₂, r, rfl, h₁, h₂⟩ := Action.yields_bind_iff.mp h
    · cases he with
      | call he => cases he
    · cases h₁ with
      | call h₁ =>
        cases h₁
        rw [List.singleton_append, List.filterMap_cons_none (hproj _)]
        exact hX.sound h₂
  complete i _ _ h := by
    obtain ⟨t', rfl, h'⟩ := hX.complete i h
    refine ⟨⟨o, r₀⟩ :: t', List.filterMap_cons_none (hproj r₀), ?_⟩
    exact Action.yields_bind_iff.mpr (.inr ⟨[⟨o, r₀⟩], t', r₀, rfl, Action.does_call o r₀, h'⟩)

end ND
