import NanoDtls.Framework.Checked
import Mathlib.Data.Prod.Basic

/-!
# Programs that call their environment

A program returns or calls an operation `o : Op` and goes on with its answer
of type `Res o`. `run` answers the calls from a state; `Prog.Next` is one call
answered at a time, for programs that run beside each other; `Yields p t a`
gives the calls of a whole run with their answers. `Action` adds an error that
ends the program. `Agrees` compares two runs of one action, whose calls are
answered differently.
-/

namespace ND

/-- A program with results in `α`. -/
inductive Prog (Op : Type) (Res : Op → Type) (α : Type) where
  | ret (a : α)
  | call (o : Op) (k : Res o → Prog Op Res α)

variable {Op : Type} {Res : Op → Type} {α β σ ε : Type}

namespace Prog

def bind (f : α → Prog Op Res β) : Prog Op Res α → Prog Op Res β
  | .ret a => f a
  | .call o k => .call o fun r => bind f (k r)

instance : Monad (Prog Op Res) where
  pure := .ret
  bind p f := bind f p

@[simp] theorem pure_eq (a : α) : (pure a : Prog Op Res α) = .ret a := rfl

@[simp] theorem ret_bind (a : α) (f : α → Prog Op Res β) : (.ret a >>= f) = f a := rfl

@[simp] theorem call_bind (o : Op) (k : Res o → Prog Op Res α) (f : α → Prog Op Res β) :
    (.call o k >>= f) = .call o fun r => k r >>= f := rfl

/-- Run a program whose calls `h` answers. -/
def run (h : (o : Op) → σ → Res o × σ) : Prog Op Res α → σ → α × σ
  | .ret a, s => (a, s)
  | .call o k, s => run h (k (h o s).1) (h o s).2

theorem run_bind (h : (o : Op) → σ → Res o × σ) (f : α → Prog Op Res β) :
    ∀ (p : Prog Op Res α) (s : σ), run h (p >>= f) s = run h (f (run h p s).1) (run h p s).2
  | .ret _, _ => rfl
  | .call o k, s => run_bind h f (k (h o s).1) (h o s).2

/-- A call and its answer. -/
abbrev Event (Op : Type) (Res : Op → Type) := (o : Op) × Res o

/-- `p` makes the calls of a trace, one after the other, and returns `a` if they are answered so. -/
inductive Yields : Prog Op Res α → List (Event Op Res) → α → Prop
  | ret (a : α) : Yields (.ret a) [] a
  | call {o : Op} {k : Res o → Prog Op Res α} {r : Res o} {t : List (Event Op Res)} {a : α} :
    Yields (k r) t a → Yields (.call o k) (⟨o, r⟩ :: t) a

theorem Yields.bind {f : α → Prog Op Res β} {p : Prog Op Res α} {t t' : List (Event Op Res)} {a : α} {b : β}
    (h : Yields p t a) (hf : Yields (f a) t' b) : Yields (p >>= f) (t ++ t') b := by
  induction h with
  | ret a => exact hf
  | call _ ih => exact .call (ih hf)

/-- `h` answers the calls of a trace as the trace says. -/
def Answers (h : (o : Op) → σ → Res o × σ) : σ → List (Event Op Res) → Prop
  | _, [] => True
  | s, ⟨o, r⟩ :: t => (h o s).1 = r ∧ Answers h (h o s).2 t

/-- A trace that is answered so is the run. -/
theorem Yields.run_fst {h : (o : Op) → σ → Res o × σ} {p : Prog Op Res α} {t : List (Event Op Res)} {a : α}
    (hp : Yields p t a) : ∀ {s : σ}, Answers h s t → (run h p s).1 = a := by
  induction hp with
  | ret a => exact fun _ => rfl
  | call _ ih =>
    rintro s ⟨rfl, ht⟩
    exact ih ht

/-- `p` calls `o`, and goes on as `q` if the answer is `r`. -/
inductive Next : Prog Op Res α → (o : Op) → Res o → Prog Op Res α → Prop
  | call (o : Op) (k : Res o → Prog Op Res α) (r : Res o) : Next (.call o k) o r (k r)

theorem Yields.eq_ret {p : Prog Op Res α} {a : α} (h : Yields p [] a) : p = .ret a := by
  cases h
  rfl

/-- The next call of a program is the first of its trace. -/
theorem Yields.op_eq {p q : Prog Op Res α} {o o' : Op} {r : Res o} {r' : Res o'} {t : List (Event Op Res)} {a : α}
    (h : Yields p (⟨o, r⟩ :: t) a) (hn : Next p o' r' q) : o' = o := by
  cases h
  cases hn
  rfl

theorem Yields.next {p q : Prog Op Res α} {o : Op} {r : Res o} {t : List (Event Op Res)} {a : α}
    (h : Yields p (⟨o, r⟩ :: t) a) (hn : Next p o r q) : Yields q t a := by
  cases h with
  | call h' =>
    cases hn
    exact h'

theorem Yields.exists_next {p : Prog Op Res α} {o : Op} {r : Res o} {t : List (Event Op Res)} {a : α}
    (h : Yields p (⟨o, r⟩ :: t) a) (r' : Res o) : ∃ q, Next p o r' q := by
  cases h with
  | call h' => exact ⟨_, .call _ _ r'⟩

/-- The calls answered so far determine whether a program has ended, and its result. -/
theorem Yields.unique_prefix {p : Prog Op Res α} {t₁ t₂ t : List (Event Op Res)} {a b : α} (h₁ : Yields p t₁ a)
    (h₂ : Yields p t₂ b) (ht₁ : t₁ <+: t) (ht₂ : t₂ <+: t) : t₁ = t₂ ∧ a = b := by
  induction h₁ generalizing t₂ t with
  | ret a =>
    cases h₂
    exact ⟨rfl, rfl⟩
  | @call o k r t₁ a _ ih =>
    cases h₂ with
    | call h₂ =>
      obtain ⟨rest, rfl⟩ := ht₁
      obtain ⟨heq, hprefix⟩ := List.cons_prefix_cons.mp ht₂
      cases heq
      obtain ⟨rfl, rfl⟩ := ih h₂ ⟨rest, rfl⟩ hprefix
      exact ⟨rfl, rfl⟩

end Prog

/-- A program that may end early with an error. -/
abbrev Action (Op : Type) (Res : Op → Type) (ε α : Type) := ExceptT ε (Prog Op Res) α

namespace Action

/-- Call an operation. -/
def call (o : Op) : Action Op Res ε (Res o) := ExceptT.lift (.call o .ret)

/-- A computation that makes no calls. -/
def check (x : Except ε α) : Action Op Res ε α := ExceptT.mk (.ret x)

/-- An action succeeds with `a` if its calls are answered as in the trace. -/
def Does (x : Action Op Res ε α) (t : List (Prog.Event Op Res)) (a : α) : Prop := Prog.Yields (ExceptT.run x) t (.ok a)

theorem does_pure (a : α) : Does (pure a : Action Op Res ε α) [] a := .ret _

theorem does_check {x : Except ε α} {a : α} (h : x = .ok a) : Does (check x : Action Op Res ε α) [] a := by
  subst h
  exact .ret _

theorem does_call (o : Op) (r : Res o) : Does (call o : Action Op Res ε (Res o)) [⟨o, r⟩] r := .call (.ret _)

/-- One action after another: one trace after another. -/
theorem Does.bind {x : Action Op Res ε α} {f : α → Action Op Res ε β} {t t' : List (Prog.Event Op Res)} {a : α} {b : β}
    (hx : Does x t a) (hf : Does (f a) t' b) : Does (x >>= f) (t ++ t') b :=
  Prog.Yields.bind (f := ExceptT.bindCont f) hx hf

theorem bind_assoc {γ : Type} (x : Action Op Res ε α) (f : α → Action Op Res ε β) (g : β → Action Op Res ε γ) :
    (x >>= f >>= g) = x >>= fun a => f a >>= g := by
  have hprog : ∀ p : Prog Op Res (Except ε α), (p >>= ExceptT.bindCont f >>= ExceptT.bindCont g) =
      p >>= ExceptT.bindCont fun a => f a >>= g := by
    intro p
    induction p with
    | ret r => cases r <;> rfl
    | call o k ih => exact congrArg (Prog.call o) (funext ih)
  exact hprog (ExceptT.run x)

/-- The result of an action whose calls `h` answers, and the state after it. -/
def run (h : (o : Op) → σ → Res o × σ) (x : Action Op Res ε α) (s : σ) : Except ε α × σ := Prog.run h (ExceptT.run x) s

variable (h : (o : Op) → σ → Res o × σ)

@[simp] theorem run_pure (a : α) (s : σ) : run h (pure a : Action Op Res ε α) s = (.ok a, s) := rfl

@[simp] theorem run_throw (e : ε) (s : σ) : run h (throw e : Action Op Res ε α) s = (.error e, s) := rfl

@[simp] theorem run_check (x : Except ε α) (s : σ) : run h (check x : Action Op Res ε α) s = (x, s) := rfl

@[simp] theorem run_call (o : Op) (s : σ) : run h (call o : Action Op Res ε (Res o)) s = (.ok (h o s).1, (h o s).2) := rfl

theorem run_bind (x : Action Op Res ε α) (f : α → Action Op Res ε β) (s : σ) :
    run h (x >>= f) s = match run h x s with
      | (.ok a, s') => run h (f a) s'
      | (.error e, s') => (.error e, s') := by
  change Prog.run h (ExceptT.run x >>= ExceptT.bindCont f) s = _
  rw [Prog.run_bind, run]
  rcases Prog.run h (ExceptT.run x) s with ⟨e | a, s'⟩ <;> rfl

theorem run_bind_ok {x : Action Op Res ε α} {f : α → Action Op Res ε β} {s s' : σ} {a : α}
    (hx : run h x s = (.ok a, s')) : run h (x >>= f) s = run h (f a) s' := by
  rw [run_bind, hx]

/-- A run of two actions in turn that succeeds is a run of each. -/
theorem run_bind_eq_ok {x : Action Op Res ε α} {f : α → Action Op Res ε β} {s s'' : σ} {b : β} :
    run h (x >>= f) s = (.ok b, s'') ↔ ∃ a s', run h x s = (.ok a, s') ∧ run h (f a) s' = (.ok b, s'') := by
  rw [run_bind]
  rcases run h x s with ⟨e | a, s'⟩
  · simp
  · simp only [Prod.mk.injEq, Except.ok.injEq]
    refine ⟨fun hf => ⟨a, s', ⟨rfl, rfl⟩, hf⟩, ?_⟩
    intro ⟨_, _, ⟨ha, hs⟩, hf⟩
    rwa [ha, hs]

/-! ## Two runs -/

/-- Two runs of an action that both succeed have the same result. -/
def Agrees (h₁ h₂ : (o : Op) → σ → Res o × σ) (x : Action Op Res ε α) (s₁ s₂ : σ) : Prop :=
  ∀ (a b : α) (s₁' s₂' : σ), run h₁ x s₁ = (.ok a, s₁') → run h₂ x s₂ = (.ok b, s₂') → a = b

theorem Agrees.bind {h₁ h₂ : (o : Op) → σ → Res o × σ} {x : Action Op Res ε α} {f : α → Action Op Res ε β} {s₁ s₂ : σ}
    (hx : Agrees h₁ h₂ x s₁ s₂) (hf : ∀ a s₁ s₂, Agrees h₁ h₂ (f a) s₁ s₂) : Agrees h₁ h₂ (x >>= f) s₁ s₂ := by
  intro _ _ _ _ hrun₁ hrun₂
  obtain ⟨a, t₁, hx₁, hf₁⟩ := (run_bind_eq_ok _).mp hrun₁
  obtain ⟨b, t₂, hx₂, hf₂⟩ := (run_bind_eq_ok _).mp hrun₂
  obtain rfl := hx a b t₁ t₂ hx₁ hx₂
  exact hf a t₁ t₂ _ _ _ _ hf₁ hf₂

end Action

end ND
