import NanoDtls.Framework.Prog

/-!
# Contracts

What a program does to an environment that may answer anything. A `Contract`
has a state that follows the calls and their answers, and says which calls are
permitted in it. `Prog.Meets C Q p s`: from the state `s`, whatever the answers
are, `p` makes only calls that are permitted, and ends with a result and a
state in `Q`. As a program is a tree without infinite branches, it ends. The
rules are those of a Hoare logic (`Meets.bind`, `Meets.mono`), for an `Action`
with a second postcondition for its errors. `Meets.of_yields` reads a judgement
off as a fact about every trace.
-/

namespace ND

structure Contract (Op : Type) (Res : Op → Type) (σ : Type) where
  permits : σ → Op → Prop
  after : σ → (o : Op) → Res o → σ

variable {Op : Type} {Res : Op → Type} {α β σ ε : Type}

namespace Contract

/-- The calls of a trace are permitted. -/
def Permits (C : Contract Op Res σ) : σ → List (Prog.Event Op Res) → Prop
  | _, [] => True
  | s, ⟨o, r⟩ :: t => C.permits s o ∧ Permits C (C.after s o r) t

/-- The state after a trace. -/
def stateAfter (C : Contract Op Res σ) (s : σ) (t : List (Prog.Event Op Res)) : σ := t.foldl (fun s e => C.after s e.1 e.2) s

theorem Permits.middle {C : Contract Op Res σ} {o : Op} {r : Res o} {t' : List (Prog.Event Op Res)} :
    ∀ {t : List (Prog.Event Op Res)} {s : σ}, C.Permits s (t ++ ⟨o, r⟩ :: t') → C.permits (C.stateAfter s t) o
  | [], _, h => h.1
  | _ :: t, _, h => Permits.middle (t := t) h.2

/-- The contract whose state is the trace so far. -/
def ofTrace (P : List (Prog.Event Op Res) → Op → Prop) : Contract Op Res (List (Prog.Event Op Res)) where
  permits := P
  after t o r := t ++ [⟨o, r⟩]

theorem stateAfter_ofTrace (P : List (Prog.Event Op Res) → Op → Prop) :
    ∀ t s : List (Prog.Event Op Res), (ofTrace P).stateAfter s t = s ++ t
  | [], s => (List.append_nil s).symm
  | e :: t, s => (stateAfter_ofTrace P t (s ++ [e])).trans (by rw [List.append_assoc, List.singleton_append])

end Contract

namespace Prog

def Meets (C : Contract Op Res σ) (Q : α → σ → Prop) : Prog Op Res α → σ → Prop
  | .ret a, s => Q a s
  | .call o k, s => C.permits s o ∧ ∀ r, Meets C Q (k r) (C.after s o r)

variable {C : Contract Op Res σ} {Q Q' : α → σ → Prop}

theorem Meets.mono (h : ∀ a s, Q a s → Q' a s) : ∀ {p : Prog Op Res α} {s : σ}, Meets C Q p s → Meets C Q' p s
  | .ret _, _, hp => h _ _ hp
  | .call _ _, _, hp => ⟨hp.1, fun r => (hp.2 r).mono h⟩

theorem Meets.bind {R : β → σ → Prop} {f : α → Prog Op Res β} (h : ∀ a s, Q a s → Meets C R (f a) s) :
    ∀ {p : Prog Op Res α} {s : σ}, Meets C Q p s → Meets C R (p >>= f) s
  | .ret _, _, hp => h _ _ hp
  | .call _ _, _, hp => ⟨hp.1, fun r => (hp.2 r).bind h⟩

theorem meets_call_bind {R : β → σ → Prop} {o : Op} {f : Res o → Prog Op Res β} {s : σ} :
    Meets C R (.call o .ret >>= f) s ↔ C.permits s o ∧ ∀ r, Meets C R (f r) (C.after s o r) := Iff.rfl

/-- All calls of a program that meets a contract. -/
theorem Meets.of_yields {p : Prog Op Res α} {t : List (Event Op Res)} {a : α} (hy : Yields p t a) :
    ∀ {s : σ}, Meets C Q p s → C.Permits s t ∧ Q a (C.stateAfter s t) := by
  induction hy with
  | ret a => exact fun h => ⟨trivial, h⟩
  | @call o k r t a _ ih =>
    intro s h
    obtain ⟨hpermits, hpost⟩ := ih (h.2 r)
    exact ⟨⟨h.1, hpermits⟩, hpost⟩

/-- Every call of a program that meets a contract on traces, and its result. -/
theorem Meets.of_trace {P : List (Event Op Res) → Op → Prop} {Q : α → List (Event Op Res) → Prop} {p : Prog Op Res α}
    {t : List (Event Op Res)} {a : α} (h : Meets (.ofTrace P) Q p []) (hy : Yields p t a) :
    Q a t ∧ ∀ before o r after, t = before ++ ⟨o, r⟩ :: after → P before o := by
  obtain ⟨hpermits, hpost⟩ := h.of_yields hy
  rw [Contract.stateAfter_ofTrace, List.nil_append] at hpost
  refine ⟨hpost, ?_⟩
  rintro before o r after rfl
  have hcall := hpermits.middle
  rwa [Contract.stateAfter_ofTrace, List.nil_append] at hcall

/-- The trace of two programs in turn. -/
theorem Yields.of_bind {f : α → Prog Op Res β} {b : β} : ∀ (p : Prog Op Res α) {t : List (Event Op Res)},
    Yields (p >>= f) t b → ∃ t₁ t₂ a, t = t₁ ++ t₂ ∧ Yields p t₁ a ∧ Yields (f a) t₂ b
  | .ret a, t, h => ⟨[], t, a, rfl, .ret a, h⟩
  | .call o k, _, .call (r := r) h => by
    obtain ⟨t₁, t₂, a, ht, h₁, h₂⟩ := Yields.of_bind (k r) h
    exact ⟨⟨o, r⟩ :: t₁, t₂, a, congrArg _ ht, .call h₁, h₂⟩

/-- The first call of a program. -/
theorem Yields.of_call_bind {o : Op} {f : Res o → Prog Op Res β} {t : List (Event Op Res)} {b : β}
    (h : Yields (.call o .ret >>= f) t b) : ∃ r t', t = ⟨o, r⟩ :: t' ∧ Yields (f r) t' b := by
  rw [call_bind] at h
  cases h with
  | call h => exact ⟨_, _, rfl, h⟩

end Prog

namespace Action

/-- The postcondition of an action: `Q` of a result, `E` of an error. -/
def Post (Q : α → σ → Prop) (E : ε → σ → Prop) : Except ε α → σ → Prop
  | .ok a => Q a
  | .error e => E e

/-- From `s`, the action makes only calls that are permitted; it succeeds in `Q` or fails in `E`. -/
def Meets (C : Contract Op Res σ) (Q : α → σ → Prop) (E : ε → σ → Prop) (x : Action Op Res ε α) (s : σ) : Prop :=
  Prog.Meets C (Post Q E) (ExceptT.run x) s

variable {C : Contract Op Res σ} {Q Q' : α → σ → Prop} {E E' : ε → σ → Prop} {x : Action Op Res ε α} {s : σ}

theorem meets_pure {a : α} (h : Q a s) : Meets C Q E (pure a) s := h

theorem meets_throw {e : ε} (h : E e s) : Meets C Q E (throw e) s := h

theorem meets_check {x : Except ε α} (h : Post Q E x s) : Meets C Q E (check x) s := h

theorem Meets.mono (hx : Meets C Q E x s) (hQ : ∀ a s, Q a s → Q' a s) (hE : ∀ e s, E e s → E' e s) :
    Meets C Q' E' x s := by
  refine Prog.Meets.mono (fun r s h => ?_) hx
  cases r with
  | ok a => exact hQ a s h
  | error e => exact hE e s h

theorem Meets.bind {R : β → σ → Prop} {f : α → Action Op Res ε β} (hx : Meets C Q E x s)
    (hf : ∀ a s, Q a s → Meets C R E (f a) s) : Meets C R E (x >>= f) s := by
  refine Prog.Meets.bind (f := ExceptT.bindCont f) (fun r s h => ?_) hx
  cases r with
  | ok a => exact hf a s h
  | error e => exact h

/-- The traces of two actions in turn: the first one fails, or the second one follows. -/
theorem yields_bind_iff {f : α → Action Op Res ε β} {t : List (Prog.Event Op Res)} {r : Except ε β} :
    Prog.Yields (ExceptT.run (x >>= f)) t r ↔
      (∃ e, r = .error e ∧ Prog.Yields (ExceptT.run x) t (.error e)) ∨
      ∃ t₁ t₂ a, t = t₁ ++ t₂ ∧ Does x t₁ a ∧ Prog.Yields (ExceptT.run (f a)) t₂ r := by
  constructor
  · intro h
    obtain ⟨t₁, t₂, r₁, rfl, h₁, h₂⟩ := Prog.Yields.of_bind (f := ExceptT.bindCont f) (ExceptT.run x) h
    cases r₁ with
    | ok a => exact .inr ⟨t₁, t₂, a, rfl, h₁, h₂⟩
    | error e =>
      cases h₂
      exact .inl ⟨e, rfl, by rwa [List.append_nil]⟩
  · rintro (⟨e, rfl, h⟩ | ⟨t₁, t₂, a, rfl, h₁, h₂⟩)
    · rw [← List.append_nil t]
      exact Prog.Yields.bind (f := ExceptT.bindCont f) h (.ret _)
    · exact Prog.Yields.bind (f := ExceptT.bindCont f) h₁ h₂

/-- The trace of two actions in turn, both of which succeed. -/
theorem Does.of_bind {f : α → Action Op Res ε β} {t : List (Prog.Event Op Res)} {b : β} (h : Does (x >>= f) t b) :
    ∃ t₁ t₂ a, t = t₁ ++ t₂ ∧ Does x t₁ a ∧ Does (f a) t₂ b := by
  rcases yields_bind_iff.mp h with ⟨e, he, -⟩ | h
  · cases he
  · exact h

/-- The traces of a program that can not fail. -/
theorem yields_lift_iff {p : Prog Op Res α} {t : List (Prog.Event Op Res)} {r : Except ε α} :
    Prog.Yields (ExceptT.run (ExceptT.lift p : Action Op Res ε α)) t r ↔ ∃ a, r = .ok a ∧ Prog.Yields p t a := by
  constructor
  · intro h
    obtain ⟨t₁, t₂, a, rfl, h₁, h₂⟩ := Prog.Yields.of_bind (f := fun a => .ret (Except.ok (ε := ε) a)) p h
    cases h₂
    exact ⟨a, rfl, by rwa [List.append_nil]⟩
  · rintro ⟨a, rfl, h⟩
    rw [← List.append_nil t]
    exact h.bind (f := fun a => .ret (Except.ok (ε := ε) a)) (.ret _)

theorem Does.of_check_bind {x : Except ε α} {f : α → Action Op Res ε β} {t : List (Prog.Event Op Res)} {b : β}
    (h : Does (check x >>= f) t b) : ∃ a, x = .ok a ∧ Does (f a) t b := by
  obtain ⟨t₁, t₂, a, rfl, hx, hf⟩ := h.of_bind
  cases hx
  exact ⟨a, rfl, hf⟩

end Action

end ND
