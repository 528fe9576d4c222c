/-!
# Computations that succeed

A computation in steps succeeds exactly when each of its steps does. These equivalences take a
successful parse or a successful step of an assembly apart, without unfolding the monads.
-/

namespace HighAsm

section Parsing

variable {ε α β : Type} {x : Except ε α}

theorem bind_ok_iff {next : α → Except ε β} {b : β} :
    x >>= next = .ok b ↔ ∃ a, x = .ok a ∧ next a = .ok b := by
  cases x with
  | error e | ok a => simp [bind, Except.bind]

theorem bind_of_ok {next : α → Except ε β} {a : α} (known : x = .ok a) : x >>= next = next a := by
  rw [known]
  rfl

theorem map_ok_iff {f : α → β} {b : β} : x.map f = .ok b ↔ ∃ a, x = .ok a ∧ f a = b := by
  cases x with
  | error e => simp [Except.map]
  | ok a => simp [Except.map]

theorem map_bind {next : α → Except ε β} {γ : Type} (f : β → γ) :
    (x >>= next).map f = x >>= fun a => (next a).map f := by
  cases x <;> rfl

theorem ok_of_toOption {a : α} (found : x.toOption = some a) : x = .ok a := by
  cases x with
  | error e => contradiction
  | ok b => rw [Option.some.inj found]

theorem pure_ok_iff {a b : α} : (pure a : Except ε α) = .ok b ↔ a = b := by
  simp [pure, Except.pure]

end Parsing

section Steps

variable {ε σ α β : Type} {s t : σ} {x : EStateM ε σ α} {next : α → EStateM ε σ β} {a : α}

theorem step_bind_ok_iff {b : β} :
    (x >>= next) s = .ok b t ↔ ∃ a u, x s = .ok a u ∧ next a u = .ok b t := by
  simp only [bind, EStateM.bind]
  cases x s with
  | error e u => simp
  | ok a u =>
    constructor
    · intro rest
      exact ⟨a, u, rfl, rest⟩
    · rintro ⟨_, _, same, rest⟩
      cases same
      exact rest

theorem step_bind_eq_of_ok (first : x s = .ok a t) : (x >>= next) s = next a t := by
  simp only [bind, EStateM.bind, first]

/-- What follows a step sees only what it comes to. -/
theorem step_bind_congr {y : EStateM ε σ α} (same : x s = y t) :
    (x >>= next) s = (y >>= next) t := by
  simp only [bind, EStateM.bind, same]

/-- A computation in steps fails where its first step does, or behind it. -/
theorem step_bind_error_iff {e : ε} :
    (x >>= next) s = .error e t ↔
      x s = .error e t ∨ ∃ a u, x s = .ok a u ∧ next a u = .error e t := by
  simp only [bind, EStateM.bind]
  cases x s with
  | error e' u => simp
  | ok a u =>
    constructor
    · intro rest
      exact .inr ⟨a, u, rfl, rest⟩
    · rintro (failed | ⟨_, _, same, rest⟩)
      · contradiction
      · cases same
        exact rest

/-- What follows a step matters only where the step succeeds. -/
theorem step_next_congr {f g : α → EStateM ε σ β} (same : ∀ r t, x s = .ok r t → f r t = g r t) :
    (x >>= f) s = (x >>= g) s := by
  cases result : x s with
  | error e t => rw [step_bind_error_iff.mpr (.inl result), step_bind_error_iff.mpr (.inl result)]
  | ok r t =>
    rw [step_bind_eq_of_ok result, step_bind_eq_of_ok result]
    exact same r t result

theorem step_pure_ok_iff {b : α} :
    (pure a : EStateM ε σ α) s = .ok b t ↔ a = b ∧ s = t := by
  simp [pure, EStateM.pure]

theorem step_discard_ok_iff :
    (do let _ ← x : EStateM ε σ Unit) s = .ok () t ↔ ∃ a, x s = .ok a t := by
  rw [step_bind_ok_iff]
  constructor
  · rintro ⟨a, _, ok, ended⟩
    cases ended
    exact ⟨a, ok⟩
  · rintro ⟨a, ok⟩
    exact ⟨a, t, ok, rfl⟩

theorem step_get_ok_iff {u : σ} : (get : EStateM ε σ σ) s = .ok u t ↔ s = u ∧ s = t := by
  constructor
  · rintro ⟨⟩
    exact ⟨rfl, rfl⟩
  · rintro ⟨rfl, rfl⟩
    rfl

theorem step_modify_ok_iff {f : σ → σ} {u : PUnit} :
    (modify f : EStateM ε σ PUnit) s = .ok u t ↔ f s = t := by
  constructor
  · rintro ⟨⟩
    rfl
  · rintro rfl
    rfl

theorem step_get_bind {next : σ → EStateM ε σ β} : (get >>= next) s = next s s := rfl

theorem step_get_ok {next : σ → EStateM ε σ β} {r : EStateM.Result ε σ β}
    (ok : (get >>= next) s = r) : next s s = r := ok

theorem step_modify_ok {f : σ → σ} {next : PUnit → EStateM ε σ β} {r : EStateM.Result ε σ β}
    (ok : (modify f >>= next) s = r) : next ⟨⟩ (f s) = r := ok

theorem step_throw_ne_ok {e : ε} : (throw e : EStateM ε σ α) s ≠ .ok a t := by
  rintro ⟨⟩

end Steps

/-- Whenever a step succeeds, the states before and after it are related. -/
def Keeps {ε σ α : Type} (R : σ → σ → Prop) (x : EStateM ε σ α) : Prop :=
  ∀ ⦃s r t⦄, x s = .ok r t → R s t

namespace Keeps

variable {ε σ α β : Type} {R : σ → σ → Prop} {x : EStateM ε σ α}

theorem pure (refl : ∀ s, R s s) (r : α) : Keeps R (Pure.pure r : EStateM ε σ α) := by
  intro s _ t ok
  cases ok
  exact refl s

theorem bind {next : α → EStateM ε σ β} (trans : ∀ {s t u}, R s t → R t u → R s u)
    (first : Keeps R x) (second : ∀ r, Keeps R (next r)) : Keeps R (x >>= next) := by
  intro s _ t ok
  obtain ⟨r, u, early, late⟩ := step_bind_ok_iff.mp ok
  exact trans (first early) (second r late)

theorem get (refl : ∀ s, R s s) : Keeps R (MonadState.get : EStateM ε σ σ) := by
  intro s _ t ok
  obtain ⟨-, rfl⟩ := step_get_ok_iff.mp ok
  exact refl s

theorem modify {f : σ → σ} (related : ∀ s, R s (f s)) :
    Keeps R (modifyGet fun s => (PUnit.unit, f s) : EStateM ε σ PUnit) := by
  intro s _ t ok
  obtain rfl := step_modify_ok_iff.mp ok
  exact related s

theorem throw (e : ε) : Keeps R (MonadExcept.throw e : EStateM ε σ α) :=
  fun _ _ _ ok => absurd ok step_throw_ne_ok

end Keeps

/-- The states before and after a step are related, also if it fails, and then in an allowed way. -/
def Ends {ε σ α : Type} (R : σ → σ → Prop) (allowed : ε → σ → Prop) (s : σ) :
    EStateM.Result ε σ α → Prop
  | .ok _ t => R s t
  | .error e t => R s t ∧ allowed e t

namespace Ends

variable {ε σ α β : Type} {R : σ → σ → Prop} {allowed : ε → σ → Prop} {s t : σ}

theorem after (trans : ∀ {s t u}, R s t → R t u → R s u) (first : R s t)
    {r : EStateM.Result ε σ α} (later : Ends R allowed t r) : Ends R allowed s r := by
  cases r with
  | ok r u => exact trans first later
  | error e u => exact ⟨trans first later.1, later.2⟩

theorem bind {x : EStateM ε σ α} {next : α → EStateM ε σ β}
    (trans : ∀ {s t u}, R s t → R t u → R s u) (first : Ends R allowed s (x s))
    (second : ∀ r t, x s = .ok r t → R s t → Ends R allowed t (next r t)) :
    Ends R allowed s ((x >>= next) s) := by
  cases done : x s with
  | error e t =>
    rw [step_bind_error_iff.mpr (.inl done)]
    rw [done] at first
    exact first
  | ok r t =>
    rw [step_bind_eq_of_ok done]
    rw [done] at first
    have related : R s t := first
    exact after (R := R) trans related (second r t done related)

theorem imp {R' : σ → σ → Prop} {allowed' : ε → σ → Prop} {s' : σ} {r : EStateM.Result ε σ α}
    (ends : Ends R allowed s r) (related : ∀ t, R s t → R' s' t)
    (excused : ∀ e t, r = .error e t → R s t → allowed e t → allowed' e t) :
    Ends R' allowed' s' r := by
  cases r with
  | ok r t => exact related t ends
  | error e t => exact ⟨related t ends.1, excused e t rfl ends.1 ends.2⟩

end Ends

/-- Wherever it is taken, a step ends in a related state, and fails only in an allowed way. -/
def Always {ε σ α : Type} (R : σ → σ → Prop) (allowed : ε → σ → Prop) (x : EStateM ε σ α) : Prop :=
  ∀ s, Ends R allowed s (x s)

namespace Always

variable {ε σ α β : Type} {R : σ → σ → Prop} {allowed : ε → σ → Prop} {x : EStateM ε σ α} {s t : σ}

theorem of_ok {r : α} (always : Always R allowed x) (ok : x s = .ok r t) : R s t := by
  have ends := always s
  rwa [ok] at ends

theorem of_error {e : ε} (always : Always R allowed x) (failed : x s = .error e t) : R s t := by
  have ends := always s
  rw [failed] at ends
  exact ends.1

theorem weaken (always : Always R allowed x) : Always R (fun _ _ => True) x :=
  fun s => (always s).imp (fun _ => id) fun _ _ _ _ _ => trivial

theorem bind {next : α → EStateM ε σ β} (trans : ∀ {s t u}, R s t → R t u → R s u)
    (first : Always R allowed x) (second : ∀ r, Always R allowed (next r)) :
    Always R allowed (x >>= next) :=
  fun s => Ends.bind trans (first s) fun r t _ _ => second r t

end Always

/-- A property of steps that goes over to whatever is made of them. -/
structure Composes {ε σ : Type} (P : ∀ {α : Type}, EStateM ε σ α → Prop) : Prop where
  pure : ∀ {α : Type} (r : α), P (Pure.pure r : EStateM ε σ α)
  get : P (MonadState.get : EStateM ε σ σ)
  bind : ∀ {α β : Type} {x : EStateM ε σ α} {next : α → EStateM ε σ β},
    P x → (∀ r, P (next r)) → P (x >>= next)

section Composes

variable {ε σ : Type} {R : σ → σ → Prop} (refl : ∀ s, R s s)
  (trans : ∀ {s t u}, R s t → R t u → R s u)
include refl trans

theorem Keeps.composes : Composes (ε := ε) (Keeps R) :=
  ⟨.pure refl, .get refl, .bind trans⟩

theorem Always.composes (allowed : ε → σ → Prop) : Composes (Always R allowed) :=
  ⟨fun _ => refl, refl, .bind trans⟩

end Composes

end HighAsm
