import RiscvSim.Library.Results
import Mathlib.Order.Defs.Unbundled

namespace RiscvSim.Results

variable {ε σ τ α β γ : Type}

/-- The state a run ends in, whether it returned or stopped. -/
def final : EStateM.Result ε σ α → σ
  | .ok _ s => s
  | .error _ s => s

/-- The same result in another state. -/
def mapState (f : σ → σ) : EStateM.Result ε σ α → EStateM.Result ε σ α
  | .ok a s => .ok a (f s)
  | .error e s => .error e (f s)

/-- The computation neither reads nor writes what `upd` overwrites. -/
def Ignores (upd : γ → σ → σ) (x : EStateM ε σ α) : Prop :=
  ∀ c s, x.run (upd c s) = mapState (upd c) (x.run s)

namespace Ignores

variable {upd : γ → σ → σ}

theorem pure (a : α) : Ignores upd (Pure.pure a : EStateM ε σ α) := fun _ _ ↦ rfl

theorem throw (e : ε) : Ignores upd (throw e : EStateM ε σ α) := fun _ _ ↦ rfl

theorem lift (x : Except ε α) : Ignores upd (lift x) := by
  intro c s
  cases x <;> rfl

theorem bind {x : EStateM ε σ α} {f : α → EStateM ε σ β} (hx : Ignores upd x)
    (hf : ∀ a, Ignores upd (f a)) : Ignores upd (x >>= f) := by
  intro c s
  rw [EStateM.run_bind, EStateM.run_bind, hx c s]
  cases x.run s with
  | ok a s' => exact hf a c s'
  | error e s' => rfl

/-- A read of a part that `upd` leaves alone. -/
theorem gets {g : σ → α} (h : ∀ c s, g (upd c s) = g s) :
    Ignores upd (do return g (← get) : EStateM ε σ α) := by
  intro c s
  change EStateM.Result.ok (g (upd c s)) (upd c s) = .ok (g s) (upd c s)
  rw [h]

theorem modify {f : σ → σ} (h : ∀ c s, f (upd c s) = upd c (f s)) :
    Ignores upd (modify f : EStateM ε σ Unit) := by
  intro c s
  change EStateM.Result.ok () (f (upd c s)) = .ok () (upd c (f s))
  rw [h]

theorem zoom {get : σ → τ} {set : τ → σ → σ} (hg : ∀ c s, get (upd c s) = get s)
    (hs : ∀ t c s, set t (upd c s) = upd c (set t s)) (x : EStateM ε τ α) :
    Ignores upd (zoom get set x) := by
  intro c s
  rw [run_zoom, run_zoom, hg]
  cases x.run (get s) with
  | ok a t => exact congrArg _ (hs t c s)
  | error e t => exact congrArg _ (hs t c s)

/-- A part of the state that the update changes in a way that the computation on it ignores. -/
theorem zoom_into {get : σ → τ} {set : τ → σ → σ} {part : γ → τ → τ} {x : EStateM ε τ α}
    (hx : Ignores part x) (hg : ∀ c s, get (upd c s) = part c (get s))
    (hs : ∀ t c s, set (part c t) (upd c s) = upd c (set t s)) : Ignores upd (Results.zoom get set x) := by
  intro c s
  rw [run_zoom, run_zoom, hg, hx c (get s)]
  cases x.run (get s) with
  | ok a t => exact congrArg _ (hs t c s)
  | error e t => exact congrArg _ (hs t c s)

theorem ite {p : Prop} [Decidable p] {x y : EStateM ε σ α} (hx : Ignores upd x)
    (hy : Ignores upd y) : Ignores upd (if p then x else y) := by
  split
  · exact hx
  · exact hy

end Ignores

/-- Whatever the computation does, the state it ends in is related to the first one. -/
def Keeps (R : σ → σ → Prop) (x : EStateM ε σ α) : Prop := ∀ s, R s (final (x.run s))

namespace Keeps

variable {R : σ → σ → Prop}

theorem of_ok {x : EStateM ε σ α} (h : Keeps R x) {s s' : σ} {a : α} (hx : x.run s = .ok a s') :
    R s s' := by
  have hs := h s
  rwa [hx] at hs

theorem of_error {x : EStateM ε σ α} (h : Keeps R x) {s s' : σ} {e : ε}
    (hx : x.run s = .error e s') : R s s' := by
  have hs := h s
  rwa [hx] at hs

theorem pure [Std.Refl R] (a : α) : Keeps R (Pure.pure a : EStateM ε σ α) := fun s ↦ refl s

theorem throw [Std.Refl R] (e : ε) : Keeps R (throw e : EStateM ε σ α) := fun s ↦ refl s

theorem lift [Std.Refl R] (x : Except ε α) : Keeps R (lift x) := by
  intro s
  cases x with
  | ok a => exact refl s
  | error e => exact refl s

theorem gets [Std.Refl R] (g : σ → α) : Keeps R (do return g (← get) : EStateM ε σ α) :=
  fun s ↦ refl s

theorem bind [IsTrans σ R] {x : EStateM ε σ α} {f : α → EStateM ε σ β} (hx : Keeps R x)
    (hf : ∀ a, Keeps R (f a)) : Keeps R (x >>= f) := by
  intro s
  have hs := hx s
  rw [EStateM.run_bind]
  cases h : x.run s with
  | ok a s' =>
    rw [h] at hs
    exact IsTrans.trans _ _ _ hs (hf a s')
  | error e s' =>
    rw [h] at hs
    exact hs

theorem modify {f : σ → σ} (h : ∀ s, R s (f s)) : Keeps R (modify f : EStateM ε σ Unit) := h

theorem zoom {get : σ → τ} {set : τ → σ → σ} {Q : τ → τ → Prop} {x : EStateM ε τ α} (hx : Keeps Q x)
    (h : ∀ s t, Q (get s) t → R s (set t s)) : Keeps R (zoom get set x) := by
  intro s
  have hq := hx (get s)
  rw [run_zoom]
  cases hr : x.run (get s) with
  | ok a t =>
    rw [hr] at hq
    exact h s t hq
  | error e t =>
    rw [hr] at hq
    exact h s t hq

theorem ite {p : Prop} [Decidable p] {x y : EStateM ε σ α} (hx : Keeps R x) (hy : Keeps R y) :
    Keeps R (if p then x else y) := by
  split
  · exact hx
  · exact hy

theorem mono {S : σ → σ → Prop} {x : EStateM ε σ α} (hx : Keeps R x) (h : ∀ s t, R s t → S s t) :
    Keeps S x := fun s ↦ h _ _ (hx s)

end Keeps

/-- Every value the computation returns meets `P`. -/
def Yields (P : α → Prop) (x : EStateM ε σ α) : Prop := ∀ s a s', x.run s = .ok a s' → P a

namespace Yields

theorem pure {P : α → Prop} {a : α} (h : P a) : Yields P (Pure.pure a : EStateM ε σ α) := by
  intro s b s' hb
  cases hb
  exact h

theorem throw {P : α → Prop} (e : ε) : Yields P (throw e : EStateM ε σ α) := by
  intro s a s' h
  cases h

theorem bind {P : β → Prop} {x : EStateM ε σ α} {f : α → EStateM ε σ β} (hf : ∀ a, Yields P (f a)) :
    Yields P (x >>= f) := by
  intro s b s'' h
  obtain ⟨a, s', -, hb⟩ := run_bind_eq_ok.mp h
  exact hf a s' b s'' hb

theorem ite {P : α → Prop} {p : Prop} [Decidable p] {x y : EStateM ε σ α} (hx : Yields P x)
    (hy : Yields P y) : Yields P (if p then x else y) := by
  split
  · exact hx
  · exact hy

end Yields

/-- Every reason the computation stops for meets `E`. -/
def Throws (E : ε → Prop) (x : EStateM ε σ α) : Prop := ∀ s e s', x.run s = .error e s' → E e

namespace Throws

variable {E : ε → Prop}

theorem pure (a : α) : Throws E (Pure.pure a : EStateM ε σ α) := by
  intro s e s' h
  cases h

theorem throw {e : ε} (h : E e) : Throws E (throw e : EStateM ε σ α) := by
  intro s e' s' he
  cases he
  exact h

theorem lift {x : Except ε α} (h : ∀ e, x = .error e → E e) : Throws E (lift x : EStateM ε σ α) := by
  intro s e s' he
  cases x with
  | ok a => cases he
  | error e' =>
    cases he
    exact h _ rfl

theorem bind {x : EStateM ε σ α} {f : α → EStateM ε σ β} (hx : Throws E x)
    (hf : ∀ a, Throws E (f a)) : Throws E (x >>= f) := by
  intro s e s'' h
  cases hr : x.run s with
  | ok a s' =>
    rw [run_bind_of_ok hr] at h
    exact hf a s' e s'' h
  | error e' s' =>
    rw [run_bind_of_error hr] at h
    cases h
    exact hx _ _ _ hr

theorem get : Throws E (get : EStateM ε σ σ) := by
  intro s e s' h
  cases h

theorem set (t : σ) : Throws E (set t : EStateM ε σ PUnit) := by
  intro s e s' h
  cases h

theorem modify (f : σ → σ) : Throws E (modify f : EStateM ε σ Unit) := by
  intro s e s' h
  cases h

theorem zoom {get : σ → τ} {set : τ → σ → σ} {x : EStateM ε τ α} (hx : Throws E x) :
    Throws E (zoom get set x) := by
  intro s e s' h
  rw [run_zoom] at h
  cases hr : x.run (get s) with
  | ok a t =>
    rw [hr] at h
    cases h
  | error e' t =>
    rw [hr] at h
    cases h
    exact hx _ _ _ hr

theorem ite {p : Prop} [Decidable p] {x y : EStateM ε σ α} (hx : Throws E x) (hy : Throws E y) :
    Throws E (if p then x else y) := by
  split
  · exact hx
  · exact hy

end Throws

end RiscvSim.Results
