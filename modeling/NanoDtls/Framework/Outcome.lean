import NanoDtls.Framework.Checked

/-!
# What a computation comes to

A function may be written over any monad into which `Except ε` lifts, and then
be run in several of them: in `Except ε` itself, or with a trace of the events
that its calls emit. An `Outcome` is a relation of the computations of a monad
and their values that is closed under the operations of the monad, so that one
proof about the function serves all of its runs. `Emits x a l`: the value of
`x` is `a`, and the events `l` are added to the trace.
-/

namespace ND

variable {ε : Type}

structure Outcome (ε : Type) (m : Type → Type) [Monad m] [MonadLiftT (Except ε) m] where
  holds : {α : Type} → m α → α → Prop
  pure : ∀ {α : Type} (a : α), holds (Pure.pure a) a
  bind : ∀ {α β : Type} {x : m α} {f : α → m β} {a : α} {b : β}, holds x a → holds (f a) b → holds (x >>= f) b
  lift : ∀ {α : Type} {x : Except ε α} {a : α}, x = .ok a → holds (liftM x) a

/-- A run that succeeds. -/
def Outcome.ok : Outcome ε (Except ε) where
  holds x a := x = .ok a
  pure _ := rfl
  bind hx hf := by rw [hx, ok_bind, hf]
  lift h := h

section Loop

variable {m : Type → Type} [Monad m] [MonadLiftT (Except ε) m] (O : Outcome ε m)

/-- A loop that simulates a pure one. -/
theorem Outcome.foldlM_sim {σ τ ι : Type} {f : σ → ι → m σ} {g : τ → ι → τ} {r : σ → τ → Prop} :
    ∀ (l : List ι) {s : σ} {t : τ}, r s t → (∀ i ∈ l, ∀ s t, r s t → ∃ s', O.holds (f s i) s' ∧ r s' (g t i)) →
      ∃ s', O.holds (l.foldlM f s) s' ∧ r s' (l.foldl g t)
  | [], s, _, h, _ => ⟨s, O.pure s, h⟩
  | i :: l, s, t, h, hstep => by
    obtain ⟨s', hs, h'⟩ := hstep i List.mem_cons_self s t h
    obtain ⟨s'', hl, h''⟩ := foldlM_sim l h' fun j hj => hstep j (List.mem_cons_of_mem _ hj)
    exact ⟨s'', by rw [List.foldlM_cons]; exact O.bind hs hl, h''⟩

end Loop

/-! ## Traces -/

section Trace

variable {E α β : Type}

/-- Add an event to the trace. -/
def emit (e : E) : StateT (List E) (Except ε) Unit := modify (· ++ [e])

def Emits (x : StateT (List E) (Except ε) α) (a : α) (l : List E) : Prop := ∀ log, x.run log = .ok (a, log ++ l)

theorem emits_pure (a : α) : Emits (pure a : StateT (List E) (Except ε) α) a [] := fun log => by
  rw [StateT.run_pure, List.append_nil]
  rfl

theorem emits_emit (e : E) : Emits (emit e : StateT (List E) (Except ε) Unit) () [e] := fun _ => rfl

theorem emits_lift {x : Except ε α} {a : α} (h : x = .ok a) :
    Emits (liftM x : StateT (List E) (Except ε) α) a [] := fun log => by
  rw [h, List.append_nil]
  rfl

theorem Emits.bind {x : StateT (List E) (Except ε) α} {f : α → StateT (List E) (Except ε) β} {a : α} {b : β}
    {l l' : List E} (hx : Emits x a l) (hf : Emits (f a) b l') : Emits (x >>= f) b (l ++ l') := fun log => by
  rw [StateT.run_bind, hx log, ok_bind, hf, List.append_assoc]

theorem Emits.of_eq {x : StateT (List E) (Except ε) α} {a : α} {l l' : List E} (hx : Emits x a l) (h : l = l') :
    Emits x a l' := h ▸ hx

theorem Emits.run_nil {x : StateT (List E) (Except ε) α} {a : α} {l : List E} (h : Emits x a l) :
    x.run [] = .ok (a, l) := h []

/-- A computation with a value comes to no other one, with no other events. -/
theorem Emits.unique {x : StateT (List E) (Except ε) α} {a b : α} {l l' : List E} (h : Emits x a l) (h' : Emits x b l') :
    a = b ∧ l = l' := by
  have heq := h.run_nil.symm.trans h'.run_nil
  exact Prod.mk.inj (Except.ok.inj heq)

/-- A run whose events have a property that holds of runs in a row if it holds of each. -/
def Outcome.traced (P : List E → Prop) (hnil : P []) (happend : ∀ {l l'}, P l → P l' → P (l ++ l')) :
    Outcome ε (StateT (List E) (Except ε)) where
  holds x a := ∃ l, Emits x a l ∧ P l
  pure a := ⟨[], emits_pure a, hnil⟩
  bind := fun ⟨l, hx, hl⟩ ⟨l', hf, hl'⟩ => ⟨l ++ l', hx.bind hf, happend hl hl'⟩
  lift h := ⟨[], emits_lift h, hnil⟩

end Trace

end ND
