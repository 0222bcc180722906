import RiscvSim.Library.Simulation

namespace RiscvSim.Simulation

open Results

variable {σ τ ε : Type}

/-- After some steps from `t` the machine stops with `e` and leaves `t'`. -/
def Stops (y : EStateM ε τ Unit) (t : τ) (e : ε) (t' : τ) : Prop :=
  ∃ n u, (iterate y n).run t = .ok () u ∧ y.run u = .error e t'

namespace Stops

variable {y : EStateM ε τ Unit} {n : ℕ} {e e' : ε} {t t' u u' : τ}

theorem now (h : y.run t = .error e t') : Stops y t e t' := ⟨0, t, rfl, h⟩

theorem of_iterate (hu : (iterate y n).run t = .ok () u) (h : Stops y u e t') : Stops y t e t' := by
  obtain ⟨m, v, hv, hstop⟩ := h
  exact ⟨n + m, v, iterate_add_eq_ok.mpr ⟨u, hu, hv⟩, hstop⟩

theorem unique (h : Stops y t e t') (h' : Stops y t e' u') : e' = e ∧ u' = t' := by
  obtain ⟨m, u, hu, hstop⟩ := h
  obtain ⟨n, v, hv, hstop'⟩ := h'
  obtain rfl : n = m := Nat.le_antisymm (le_of_iterate_stops hu hstop hv) (le_of_iterate_stops hv hstop' hu)
  rw [hu] at hv
  cases hv
  rw [hstop] at hstop'
  cases hstop'
  exact ⟨rfl, rfl⟩

end Stops

/-- Rounds that ended as given, beside a machine of smaller steps in `t`: they were `n` of its steps or
more, or they were given up, or both machines stop. -/
inductive Covers (y : EStateM ε τ Unit) (given : ε → Prop) (R E : σ → τ → Prop) (n : ℕ) :
    EStateM.Result ε σ Unit → τ → Prop
  | steps {m : ℕ} {s' : σ} {t t' : τ} : n ≤ m → (iterate y m).run t = .ok () t' → R s' t' →
      Covers y given R E n (.ok () s') t
  | given {e : ε} {s' : σ} {t : τ} : given e → Covers y given R E n (.error e s') t
  | stops {e : ε} {s' : σ} {t t' : τ} : Stops y t e t' → E s' t' → Covers y given R E n (.error e s') t

theorem Covers.mono {y : EStateM ε τ Unit} {given given' : ε → Prop} {R E : σ → τ → Prop} {n : ℕ}
    {r : EStateM.Result ε σ Unit} {t : τ} (h : Covers y given R E n r t) (hg : ∀ e, given e → given' e) :
    Covers y given' R E n r t := by
  cases h with
  | steps hle hsteps hR => exact .steps hle hsteps hR
  | given he => exact .given (hg _ he)
  | stops hstop hE => exact .stops hstop hE

section

variable {x : EStateM ε σ Unit} {y : EStateM ε τ Unit} {given : ε → Prop} {R E : σ → τ → Prop}
  {s : σ} {t : τ}

theorem iterate_covers (h : ∀ s t, R s t → Covers y given R E 1 (x.run s) t) (n : ℕ) (hR : R s t) :
    Covers y given R E n ((iterate x n).run s) t := by
  induction n generalizing s t with
  | zero => exact .steps (Nat.le_refl 0) rfl hR
  | succ n ih =>
    have hround := h s t hR
    cases hx : x.run s with
    | error e s' =>
      rw [hx] at hround
      rw [iterate, run_bind_of_error hx]
      cases hround with
      | given hg => exact .given hg
      | stops hstop hE => exact .stops hstop hE
    | ok u s' =>
      rw [hx] at hround
      rw [iterate, run_bind_of_ok hx]
      cases hround with
      | @steps k _ _ t' hpos hsteps hR' =>
        have hrest := ih hR'
        generalize (iterate x n).run s' = r at hrest
        cases hrest with
        | @steps m _ _ _ hle hmore hR'' =>
          exact .steps (by omega) (iterate_add_eq_ok.mpr ⟨t', hsteps, hmore⟩) hR''
        | given hg => exact .given hg
        | stops hstop hE => exact .stops (hstop.of_iterate hsteps) hE

end

end RiscvSim.Simulation
