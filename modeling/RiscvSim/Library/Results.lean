import Mathlib.Logic.Basic

namespace RiscvSim.Results

variable {ε σ τ α β γ δ : Type}

theorem bind_eq_ok {x : Except ε α} {f : α → Except ε β} {b : β} :
    (x >>= f) = .ok b ↔ ∃ a, x = .ok a ∧ f a = .ok b := by
  cases x <;> simp [bind, Except.bind]

theorem bind_error {x : Except ε α} {f : α → Except ε β} {e : ε} (h : (x >>= f) = .error e) :
    x = .error e ∨ ∃ a, x = .ok a ∧ f a = .error e := by
  cases x with
  | error e' => exact .inl (by simpa [bind, Except.bind] using h)
  | ok a => exact .inr ⟨a, rfl, h⟩

/-- A computation that may stop but touches no state. -/
def lift (x : Except ε α) : EStateM ε σ α := fun s ↦
  match x with
  | .ok a => .ok a s
  | .error e => .error e s

theorem run_bind_of_ok {x : EStateM ε σ α} {f : α → EStateM ε σ β} {s s' : σ} {a : α}
    (h : x.run s = .ok a s') : (x >>= f).run s = (f a).run s' := by
  rw [EStateM.run_bind, h]

theorem run_bind_of_error {x : EStateM ε σ α} {f : α → EStateM ε σ β} {s s' : σ} {e : ε}
    (h : x.run s = .error e s') : (x >>= f).run s = .error e s' := by
  rw [EStateM.run_bind, h]

theorem run_bind_assoc_of_ok {x : EStateM ε σ α} {f : α → EStateM ε σ β} {g : β → EStateM ε σ γ}
    {s s' : σ} {b : β} (h : (x >>= f).run s = .ok b s') :
    (x >>= fun a ↦ f a >>= g).run s = (g b).run s' := by
  rw [← bind_assoc, run_bind_of_ok h]

theorem run_bind_assoc_of_error {x : EStateM ε σ α} {f : α → EStateM ε σ β}
    {g : β → EStateM ε σ γ} {s s' : σ} {e : ε} (h : (x >>= f).run s = .error e s') :
    (x >>= fun a ↦ f a >>= g).run s = .error e s' := by
  rw [← bind_assoc, run_bind_of_error h]

theorem run_bind_eq_ok {x : EStateM ε σ α} {f : α → EStateM ε σ β} {s s'' : σ} {b : β} :
    (x >>= f).run s = .ok b s'' ↔ ∃ a s', x.run s = .ok a s' ∧ (f a).run s' = .ok b s'' := by
  constructor
  · intro h
    cases hx : x.run s with
    | ok a s' => exact ⟨a, s', rfl, by rwa [run_bind_of_ok hx] at h⟩
    | error e s' => rw [run_bind_of_error hx] at h; cases h
  · rintro ⟨a, s', hx, hf⟩
    rw [run_bind_of_ok hx, hf]

theorem run_bind_eq_error {x : EStateM ε σ α} {f : α → EStateM ε σ β} {s s'' : σ} {e : ε} :
    (x >>= f).run s = .error e s'' ↔
      x.run s = .error e s'' ∨ ∃ a s', x.run s = .ok a s' ∧ (f a).run s' = .error e s'' := by
  cases hx : x.run s with
  | ok a t =>
    rw [run_bind_of_ok hx]
    constructor
    · exact fun h ↦ .inr ⟨a, t, rfl, h⟩
    · rintro (h | ⟨a', t', h, hf⟩)
      · cases h
      · cases h
        exact hf
  | error e' t =>
    rw [run_bind_of_error hx]
    constructor
    · intro h
      cases h
      exact .inl rfl
    · rintro (h | ⟨a', t', h, -⟩)
      · cases h
        rfl
      · cases h

/-- What only computes on the value does not stop. -/
theorem run_bind_pure_eq_error {x : EStateM ε σ α} {g : α → β} {s s' : σ} {e : ε} :
    (x >>= fun a ↦ pure (g a)).run s = .error e s' ↔ x.run s = .error e s' := by
  cases hx : x.run s with
  | ok a t =>
    rw [run_bind_of_ok hx]
    exact ⟨nofun, nofun⟩
  | error e' t =>
    rw [run_bind_of_error hx]
    simp only [EStateM.Result.error.injEq]

@[simp] theorem run_throw (e : ε) (s : σ) : (throw e : EStateM ε σ α).run s = .error e s := rfl

@[simp] theorem run_lift_ok (a : α) (s : σ) : (lift (ε := ε) (.ok a)).run s = .ok a s := rfl

@[simp] theorem run_lift_error (e : ε) (s : σ) :
    (lift (α := α) (.error e)).run s = .error e s := rfl

theorem run_lift_eq_ok {x : Except ε α} {s s' : σ} {a : α} :
    (lift x).run s = .ok a s' ↔ x = .ok a ∧ s' = s := by
  cases x <;> simp [eq_comm]

/-- A computation on a part of the state. -/
def zoom (get : σ → τ) (set : τ → σ → σ) (x : EStateM ε τ α) : EStateM ε σ α := fun s ↦
  match x.run (get s) with
  | .ok a t => .ok a (set t s)
  | .error e t => .error e (set t s)

theorem run_zoom (get : σ → τ) (set : τ → σ → σ) (x : EStateM ε τ α) (s : σ) :
    (zoom get set x).run s = match x.run (get s) with
      | .ok a t => .ok a (set t s)
      | .error e t => .error e (set t s) := rfl

/-- Two runs end alike: both return, with related values and states, or both stop for
the same reason, in states related by `E`. -/
inductive Alike (A : α → β → Prop) (R E : σ → τ → Prop) :
    EStateM.Result ε σ α → EStateM.Result ε τ β → Prop
  | ok {a : α} {b : β} {s : σ} {t : τ} : A a b → R s t → Alike A R E (.ok a s) (.ok b t)
  | error {e : ε} {s : σ} {t : τ} : E s t → Alike A R E (.error e s) (.error e t)

namespace Alike

variable {A : α → β → Prop} {B : γ → δ → Prop} {R R' E E' : σ → τ → Prop}

/-- The second parts are compared in the states the first ones ended in. -/
theorem bind_of_runs {x : EStateM ε σ α} {y : EStateM ε τ β} {f : α → EStateM ε σ γ}
    {g : β → EStateM ε τ δ} {s : σ} {t : τ} (h : Alike A R E (x.run s) (y.run t))
    (hf : ∀ a b s' t', x.run s = .ok a s' → y.run t = .ok b t' → A a b → R s' t' →
      Alike B R' E ((f a).run s') ((g b).run t')) :
    Alike B R' E ((x >>= f).run s) ((y >>= g).run t) := by
  rw [EStateM.run_bind, EStateM.run_bind]
  generalize x.run s = r at h hf ⊢
  generalize y.run t = r' at h hf ⊢
  cases h with
  | ok ha hr => exact hf _ _ _ _ rfl rfl ha hr
  | error he => exact .error he

theorem bind {x : EStateM ε σ α} {y : EStateM ε τ β} {f : α → EStateM ε σ γ}
    {g : β → EStateM ε τ δ} {s : σ} {t : τ} (h : Alike A R E (x.run s) (y.run t))
    (hf : ∀ a b s t, A a b → R s t → Alike B R' E ((f a).run s) ((g b).run t)) :
    Alike B R' E ((x >>= f).run s) ((y >>= g).run t) :=
  h.bind_of_runs fun _ _ _ _ _ _ ↦ hf _ _ _ _

theorem mono {x : EStateM.Result ε σ α} {y : EStateM.Result ε τ β} {A' : α → β → Prop}
    (h : Alike A R E x y) (hA : ∀ a b, A a b → A' a b) (hR : ∀ s t, R s t → R' s t)
    (hE : ∀ s t, E s t → E' s t) : Alike A' R' E' x y := by
  cases h with
  | ok ha hr => exact .ok (hA _ _ ha) (hR _ _ hr)
  | error he => exact .error (hE _ _ he)

/-- Two runs that end like a third one end alike. -/
theorem compose {υ ζ : Type} {x : EStateM.Result ε σ α} {y : EStateM.Result ε τ β}
    {z : EStateM.Result ε υ ζ} {A' : ζ → β → Prop} {R₂ E₂ : υ → τ → Prop} {A₃ : α → ζ → Prop}
    {R₃ E₃ : σ → υ → Prop} (h : Alike A R E x y) (h' : Alike A' R₂ E₂ z y)
    (hA : ∀ a b c, A a b → A' c b → A₃ a c) (hR : ∀ s t u, R s t → R₂ u t → R₃ s u)
    (hE : ∀ s t u, E s t → E₂ u t → E₃ s u) : Alike A₃ R₃ E₃ x z := by
  cases h with
  | ok ha hr =>
    cases h' with
    | ok ha' hr' => exact .ok (hA _ _ _ ha ha') (hR _ _ _ hr hr')
  | error he =>
    cases h' with
    | error he' => exact .error (hE _ _ _ he he')

theorem lift {x : Except ε α} {s : σ} {t : τ} (h : R s t) (he : E s t) :
    Alike Eq R E ((lift x).run s) ((lift x).run t) := by
  cases x with
  | ok a => exact .ok rfl h
  | error e => exact .error he

end Alike

end RiscvSim.Results
