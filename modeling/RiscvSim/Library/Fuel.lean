import RiscvSim.Library.Results

namespace RiscvSim.Results

variable {ε σ τ α β : Type} {spent : ε}

/-- `y` does what `x` does, and may go on where `x` runs out of fuel. -/
def Prolongs (spent : ε) (x y : EStateM ε σ α) : Prop :=
  ∀ s, y.run s = x.run s ∨ ∃ s', x.run s = .error spent s'

namespace Prolongs

variable {x y z : EStateM ε σ α} {f g : α → EStateM ε σ β} {s s' : σ}

theorem refl (x : EStateM ε σ α) : Prolongs spent x x := fun _ ↦ .inl rfl

theorem of_spent (s' : σ → σ) (h : ∀ s, x.run s = .error spent (s' s)) (y : EStateM ε σ α) :
    Prolongs spent x y :=
  fun s ↦ .inr ⟨s' s, h s⟩

theorem trans (h : Prolongs spent x y) (h' : Prolongs spent y z) : Prolongs spent x z := by
  intro s
  rcases h s with hxy | hspent
  · rcases h' s with hyz | ⟨s', hspent⟩
    · exact .inl (hyz.trans hxy)
    · exact .inr ⟨s', hxy ▸ hspent⟩
  · exact .inr hspent

theorem bind (h : Prolongs spent x y) (hf : ∀ a, Prolongs spent (f a) (g a)) :
    Prolongs spent (x >>= f) (y >>= g) := by
  intro s
  rcases h s with hxy | ⟨s', hspent⟩
  · cases hx : x.run s with
    | error e s' =>
      rw [hx] at hxy
      exact .inl ((run_bind_of_error hxy).trans (run_bind_of_error hx).symm)
    | ok a s' =>
      rw [hx] at hxy
      rw [run_bind_of_ok hxy, run_bind_of_ok hx]
      exact hf a s'
  · exact .inr ⟨s', run_bind_of_error hspent⟩

theorem bind_right (x : EStateM ε σ α) (hf : ∀ a, Prolongs spent (f a) (g a)) :
    Prolongs spent (x >>= f) (x >>= g) := (refl x).bind hf

theorem ite {c : Prop} [Decidable c] {x' y' : EStateM ε σ α} (h : Prolongs spent x y)
    (h' : Prolongs spent x' y') : Prolongs spent (if c then x else x') (if c then y else y') := by
  split
  · exact h
  · exact h'

theorem ok (h : Prolongs spent x y) {a : α} (hx : x.run s = .ok a s') : y.run s = .ok a s' := by
  rcases h s with hxy | ⟨s', hspent⟩
  · exact hxy.trans hx
  · rw [hx] at hspent
    cases hspent

theorem error (h : Prolongs spent x y) {e : ε} (hx : x.run s = .error e s') (he : e ≠ spent) :
    y.run s = .error e s' := by
  rcases h s with hxy | ⟨s', hspent⟩
  · exact hxy.trans hx
  · rw [hx] at hspent
    cases hspent
    exact absurd rfl he

end Prolongs

end RiscvSim.Results
