import Mathlib.Data.List.Forall2
import Mathlib.Logic.Basic
import Mathlib.Tactic.Tauto

/-!
# Checked computations

A function that checks its input and returns early is a chain of `failIf`
and binds in `Except ε`. `bind_eq_ok` and `failIf_bind_eq_ok` read a
successful chain as the conjunction of its checks, one link at a time;
`ok_bind`, `failIf_neg` and `failIf_pos` run a chain forward. `Avoids e x`:
the error `e` does not occur; `Ensures e x P`: nor does a result without `P`.
`returnIfError` is the early return of a function that passes its state on:
checks that come before all writes leave it as it was
(`returnIfError_bind`, `snd_returnIfError`).
-/

namespace ND

variable {ε α β : Type _}

/-- Return early with `e` if `c` holds. -/
def failIf (c : Prop) [Decidable c] (e : ε) : Except ε Unit := if c then .error e else .ok ()

theorem failIf_pos {c : Prop} [Decidable c] (e : ε) (h : c) : failIf c e = .error e := if_pos h

theorem failIf_neg {c : Prop} [Decidable c] (e : ε) (h : ¬ c) : failIf c e = .ok () := if_neg h

theorem failIf_eq_ok {c : Prop} [Decidable c] {e : ε} {u : Unit} : failIf c e = .ok u ↔ ¬ c := by
  by_cases h : c <;> simp [failIf, h]

@[simp] theorem ok_bind (a : α) (f : α → Except ε β) : (Except.ok a >>= f) = f a := rfl

@[simp] theorem error_bind (e : ε) (f : α → Except ε β) : ((Except.error e : Except ε α) >>= f) = .error e := rfl

@[simp] theorem pure_eq_ok (a : α) : (pure a : Except ε α) = .ok a := rfl

@[simp] theorem throw_eq_error (e : ε) : (throw e : Except ε α) = .error e := rfl

@[simp] theorem map_ok (f : α → β) (a : α) : f <$> (Except.ok a : Except ε α) = .ok (f a) := rfl

theorem bind_eq_ok {x : Except ε α} {f : α → Except ε β} {b : β} :
    (x >>= f) = .ok b ↔ ∃ a, x = .ok a ∧ f a = .ok b := by
  cases x <;> simp

theorem map_eq_ok {x : Except ε α} {f : α → β} {b : β} : f <$> x = .ok b ↔ ∃ a, x = .ok a ∧ f a = b := by
  cases x <;> simp [Functor.map, Except.map]

theorem failIf_bind_eq_ok {c : Prop} [Decidable c] {e : ε} {f : Unit → Except ε β} {b : β} :
    (failIf c e >>= f) = .ok b ↔ ¬ c ∧ f () = .ok b := by
  by_cases h : c <;> simp [failIf, h]

theorem failIf_bind {c : Prop} [Decidable c] {e : ε} {f : Unit → Except ε β} (h : ¬ c) :
    (failIf c e >>= f) = f () := by
  rw [failIf_neg e h, ok_bind]

theorem failIf_bind_congr {c : Prop} [Decidable c] {e : ε} {f g : Unit → Except ε β} (h : ¬ c → f () = g ()) :
    (failIf c e >>= f) = (failIf c e >>= g) := by
  by_cases hc : c
  · rw [failIf_pos e hc, error_bind, error_bind]
  · rw [failIf_bind hc, failIf_bind hc, h hc]

/-- The check `x` decides `c`: it succeeds if `c` holds and otherwise fails with `e`. -/
def Decides (x : Except ε Unit) (c : Prop) (e : ε) : Prop := (x = .ok () ∧ c) ∨ (x = .error e ∧ ¬ c)

theorem Decides.ok_iff {x : Except ε Unit} {c : Prop} {e : ε} (h : Decides x c e) : x = .ok () ↔ c := by
  rcases h with ⟨rfl, hc⟩ | ⟨rfl, hc⟩ <;> simp [hc]

theorem Decides.error {x : Except ε Unit} {c : Prop} {e : ε} (h : Decides x c e) (hc : ¬ c) : x = .error e := by
  rcases h with ⟨_, hc'⟩ | ⟨rfl, _⟩
  · exact absurd hc' hc
  · rfl

theorem decides_failIf {c : Prop} [Decidable c] (e : ε) : Decides (failIf c e) (¬ c) e := by
  by_cases h : c
  · exact .inr ⟨failIf_pos e h, not_not.mpr h⟩
  · exact .inl ⟨failIf_neg e h, h⟩

theorem Decides.congr {x : Except ε Unit} {c d : Prop} {e : ε} (h : Decides x c e) (hcd : c ↔ d) : Decides x d e := by
  rwa [Decides, ← hcd]

/-! ## Errors that do not occur -/

/-- The error `e` is not the result. -/
def Avoids (e : ε) (x : Except ε α) : Prop := x ≠ .error e

theorem avoids_ok {e : ε} (a : α) : Avoids e (.ok a) := nofun

theorem avoids_error {e e' : ε} (h : e' ≠ e) : Avoids e (.error e' : Except ε α) := by
  intro h'
  exact h (Except.error.inj h')

theorem Avoids.bind {e : ε} {x : Except ε α} {f : α → Except ε β} (hx : Avoids e x)
    (hf : ∀ a, x = .ok a → Avoids e (f a)) : Avoids e (x >>= f) := by
  cases x with
  | error e' => exact avoids_error fun h => hx (h ▸ rfl)
  | ok a => exact hf a rfl

theorem avoids_failIf_bind {c : Prop} [Decidable c] {e e' : ε} {f : Unit → Except ε β} (he : e' ≠ e)
    (hf : ¬ c → Avoids e (f ())) : Avoids e (failIf c e' >>= f) := by
  by_cases h : c
  · rw [failIf_pos e' h]
    exact avoids_error he
  · rw [failIf_bind h]
    exact hf h

/-- The error `e` is not the result, and a value has the property `P`. -/
def Ensures (e : ε) (x : Except ε α) (P : α → Prop) : Prop := Avoids e x ∧ ∀ a, x = .ok a → P a

theorem ensures_ok {e : ε} {P : α → Prop} {a : α} (h : P a) : Ensures e (.ok a) P :=
  ⟨avoids_ok a, fun _ h' => Except.ok.inj h' ▸ h⟩

theorem ensures_error {e e' : ε} {P : α → Prop} (h : e' ≠ e) : Ensures e (.error e') P := ⟨avoids_error h, nofun⟩

theorem Ensures.mono {e : ε} {x : Except ε α} {P Q : α → Prop} (h : Ensures e x P) (hPQ : ∀ a, P a → Q a) :
    Ensures e x Q :=
  ⟨h.1, fun a ha => hPQ a (h.2 a ha)⟩

theorem Ensures.bind {e : ε} {x : Except ε α} {f : α → Except ε β} {P : α → Prop} {Q : β → Prop} (hx : Ensures e x P)
    (hf : ∀ a, P a → Ensures e (f a) Q) : Ensures e (x >>= f) Q := by
  refine ⟨hx.1.bind fun a ha => (hf a (hx.2 a ha)).1, ?_⟩
  intro b hb
  obtain ⟨a, ha, hb⟩ := bind_eq_ok.mp hb
  exact (hf a (hx.2 a ha)).2 b hb

theorem ensures_failIf {c : Prop} [Decidable c] {e e' : ε} (he : e' ≠ e) : Ensures e (failIf c e') fun _ => ¬ c :=
  ⟨by by_cases h : c <;> simp [Avoids, failIf, h, he], fun _ => failIf_eq_ok.mp⟩

theorem ensures_failIf_bind {c : Prop} [Decidable c] {e e' : ε} {f : Unit → Except ε β} {Q : β → Prop} (he : e' ≠ e)
    (hf : ¬ c → Ensures e (f ()) Q) : Ensures e (failIf c e' >>= f) Q :=
  (ensures_failIf he).bind fun _ => hf

theorem ensures_ite {c : Prop} [Decidable c] {e : ε} {x y : Except ε α} {P : α → Prop} (hx : c → Ensures e x P)
    (hy : ¬ c → Ensures e y P) : Ensures e (if c then x else y) P := by
  split
  · exact hx (by assumption)
  · exact hy (by assumption)

/-! ## Early returns with a state -/

section State

variable {γ σ : Type _}

/-- Go on with the value of `x`, or return its error in the state `s`. -/
def returnIfError (x : Except ε α) (s : σ) (k : α → Except ε β × σ) : Except ε β × σ :=
  match x with
  | .error e => (.error e, s)
  | .ok a => k a

@[simp] theorem returnIfError_ok (a : α) (s : σ) (k : α → Except ε β × σ) : returnIfError (.ok a) s k = k a := rfl

@[simp] theorem returnIfError_error (e : ε) (s : σ) (k : α → Except ε β × σ) :
    returnIfError (.error e) s k = (.error e, s) := rfl

/-- Checks in a row that return in one state are one check. -/
theorem returnIfError_bind (x : Except ε α) (f : α → Except ε γ) (s : σ) (k : γ → Except ε β × σ) :
    returnIfError (x >>= f) s k = returnIfError x s fun a => returnIfError (f a) s k := by
  cases x <;> rfl

/-- If only the check fails, an error leaves the state as it was. -/
theorem snd_returnIfError {x : Except ε α} {s : σ} {g : α → β} {f : α → σ} {e : ε}
    (h : (returnIfError x s fun a => (.ok (g a), f a)).1 = .error e) :
    x = .error e ∧ (returnIfError x s fun a => (.ok (g a), f a)).2 = s := by
  cases x with
  | error e' => exact ⟨congrArg _ (Except.error.inj h), rfl⟩
  | ok a => cases h

end State

/-! ## Loops -/

/-- A loop that succeeds is a list of successes. -/
theorem mapM_eq_ok {f : α → Except ε β} : ∀ {l : List α} {r : List β},
    l.mapM f = .ok r ↔ List.Forall₂ (fun a b => f a = .ok b) l r
  | [], r => by
    rw [List.mapM_nil, List.forall₂_nil_left_iff, pure_eq_ok, Except.ok.injEq, eq_comm]
  | a :: l, r => by
    simp only [List.mapM_cons, bind_eq_ok, pure_eq_ok, Except.ok.injEq, List.forall₂_cons_left_iff]
    constructor
    · intro ⟨b, hb, bs, hbs, hr⟩
      exact ⟨b, bs, hb, mapM_eq_ok.mp hbs, hr.symm⟩
    · intro ⟨b, bs, hb, hbs, hr⟩
      exact ⟨b, hb, bs, mapM_eq_ok.mpr hbs, hr.symm⟩

/-- A loop whose turns have only one error. -/
theorem mapM_ok_or_error {f : α → Except ε β} {e : ε} (hf : ∀ a, (∃ b, f a = .ok b) ∨ f a = .error e) :
    ∀ l : List α, (∃ r, l.mapM f = .ok r) ∨ l.mapM f = .error e
  | [] => .inl ⟨[], rfl⟩
  | a :: l => by
    rw [List.mapM_cons]
    rcases hf a with ⟨b, hb⟩ | ha
    · rw [hb, ok_bind]
      rcases mapM_ok_or_error hf l with ⟨r, hr⟩ | hl
      · exact .inl ⟨b :: r, by rw [hr, ok_bind, pure_eq_ok]⟩
      · exact .inr (by rw [hl, error_bind])
    · exact .inr (by rw [ha, error_bind])

end ND
