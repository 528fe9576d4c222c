import HighAsm.Proofs.Success

/-!
# Two computations in parallel

Two computations are compared step by step. From related states both succeed, with related results
in related states, or both fail in a way that is allowed. What holds of the steps holds of the
computations that are made of them.
-/

namespace HighAsm

variable {ε σ τ α β : Type}

/-- Two results go together. -/
inductive Coincide (R : σ → τ → Prop) (E : ε → ε → σ → τ → Prop) (V : α → β → Prop) :
    EStateM.Result ε σ α → EStateM.Result ε τ β → Prop
  | ok {r : α} {r' : β} {s : σ} {t : τ} (results : V r r') (states : R s t) :
      Coincide R E V (.ok r s) (.ok r' t)
  | error {e e' : ε} {s : σ} {t : τ} (failures : E e e' s t) :
      Coincide R E V (.error e s) (.error e' t)

/-- Two computations that start in related states have results that go together. -/
def Parallel (R : σ → τ → Prop) (E : ε → ε → σ → τ → Prop) (V : α → β → Prop)
    (x : EStateM ε σ α) (y : EStateM ε τ β) : Prop :=
  ∀ s t, R s t → Coincide R E V (x s) (y t)

variable {R : σ → τ → Prop} {E : ε → ε → σ → τ → Prop} {V : α → β → Prop}

namespace Coincide

variable {γ δ : Type} {W : γ → δ → Prop} {x : EStateM ε σ α} {y : EStateM ε τ β}
  {next : α → EStateM ε σ γ} {next' : β → EStateM ε τ δ} {s : σ} {t : τ}

theorem bind {R' : σ → τ → Prop} (first : Coincide R E V (x s) (y t))
    (second : ∀ r r' u v, V r r' → R u v → Coincide R' E W (next r u) (next' r' v)) :
    Coincide R' E W ((x >>= next) s) ((y >>= next') t) := by
  generalize left : x s = a at first
  generalize right : y t = b at first
  cases first with
  | ok results states =>
    rw [step_bind_eq_of_ok left, step_bind_eq_of_ok right]
    exact second _ _ _ _ results states
  | error failures =>
    rw [step_bind_error_iff.mpr (.inl left), step_bind_error_iff.mpr (.inl right)]
    exact .error failures

end Coincide

namespace Parallel

variable {γ δ : Type} {W : γ → δ → Prop} {x x₂ : EStateM ε σ α} {y y₂ : EStateM ε τ β}

theorem pure {r : α} {r' : β} (results : V r r') :
    Parallel R E V (Pure.pure r : EStateM ε σ α) (Pure.pure r' : EStateM ε τ β) :=
  fun _ _ states => .ok results states

theorem bind {next : α → EStateM ε σ γ} {next' : β → EStateM ε τ δ} (first : Parallel R E V x y)
    (second : ∀ r r', V r r' → Parallel R E W (next r) (next' r')) :
    Parallel R E W (x >>= next) (y >>= next') :=
  fun s t states => (first s t states).bind fun r r' u v results => second r r' results u v

theorem modify {f : σ → σ} {g : τ → τ} (states : ∀ s t, R s t → R (f s) (g t)) :
    Parallel R E (fun _ _ => True) (modifyGet fun s => (PUnit.unit, f s) : EStateM ε σ PUnit)
      (modifyGet fun t => (PUnit.unit, g t) : EStateM ε τ PUnit) :=
  fun s t related => .ok trivial (states s t related)

theorem throw {e e' : ε} (failures : ∀ s t, R s t → E e e' s t) :
    Parallel R E V (MonadExcept.throw e : EStateM ε σ α) (MonadExcept.throw e' : EStateM ε τ β) :=
  fun s t related => .error (failures s t related)

theorem ite {c c' : Prop} [Decidable c] [Decidable c'] (same : c ↔ c') (yes : Parallel R E V x y)
    (no : Parallel R E V x₂ y₂) :
    Parallel R E V (if c then x else x₂) (if c' then y else y₂) := by
  by_cases holds : c
  · rw [if_pos holds, if_pos (same.mp holds)]
    exact yes
  · rw [if_neg holds, if_neg fun other => holds (same.mpr other)]
    exact no

end Parallel

end HighAsm
