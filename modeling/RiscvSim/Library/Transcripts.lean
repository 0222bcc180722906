import RiscvSim.Library.Frames
import RiscvSim.Library.Simulation

namespace RiscvSim.Simulation

open Results

variable {ε σ α : Type}

/-- The events of `n` steps, or of the steps up to one that stops, which emits its own too. -/
def transcript (x : EStateM ε σ Unit) (emit : σ → List α) : ℕ → σ → List α
  | 0, _ => []
  | n + 1, s =>
    match x.run s with
    | .ok _ s' => emit s ++ transcript x emit n s'
    | .error _ _ => emit s

section

variable {x : EStateM ε σ Unit} {emit : σ → List α} {s s' t u : σ} {e : ε}

theorem transcript_next (h : x.run s = .ok () s') (n : ℕ) :
    transcript x emit (n + 1) s = emit s ++ transcript x emit n s' := by
  rw [transcript, h]

theorem transcript_last (h : x.run s = .error e s') (n : ℕ) : transcript x emit (n + 1) s = emit s := by
  rw [transcript, h]

theorem transcript_add {m : ℕ} (h : (iterate x m).run s = .ok () t) (n : ℕ) :
    transcript x emit (m + n) s = transcript x emit m s ++ transcript x emit n t := by
  induction m generalizing s with
  | zero =>
    cases h
    rw [Nat.zero_add, transcript, List.nil_append]
  | succ m ih =>
    obtain ⟨v, s', hx, hr⟩ := run_bind_eq_ok.mp h
    rw [Nat.add_right_comm, transcript_next hx, transcript_next hx, ih hr, List.append_assoc]

variable {I : σ → Prop} {R : List α → σ → σ → Prop} (hnil : ∀ s, R [] s s)
  (happend : ∀ {as bs s t u}, R as s t → R bs t u → R (as ++ bs) s u)
  (hstep : ∀ s, I s → R (emit s) s (final (x.run s))) (hI : ∀ s s', I s → x.run s = .ok () s' → I s')

include hI

theorem invariant_iterate {n : ℕ} (hs : I s) (h : (iterate x n).run s = .ok () t) : I t := by
  induction n generalizing s with
  | zero =>
    cases h
    exact hs
  | succ n ih =>
    obtain ⟨v, s', hx, hr⟩ := run_bind_eq_ok.mp h
    exact ih (hI s s' hs hx) hr

include hnil happend hstep

/-- What each step, also one that stops, does by its events, a run does by its transcript. -/
theorem transcript_run {n : ℕ} (hs : I s) (h : (iterate x n).run s = .ok () t) :
    R (transcript x emit n s) s t := by
  induction n generalizing s with
  | zero =>
    cases h
    exact hnil _
  | succ n ih =>
    obtain ⟨v, s', hx, hr⟩ := run_bind_eq_ok.mp h
    have hfirst := hstep s hs
    rw [hx] at hfirst
    rw [transcript_next hx]
    exact happend hfirst (ih (hI s s' hs hx) hr)

theorem transcript_stop {n : ℕ} (hs : I s) (h : (iterate x n).run s = .ok () t)
    (hstop : x.run t = .error e u) : R (transcript x emit (n + 1) s) s u := by
  have hlast := hstep t (invariant_iterate hI hs h)
  rw [hstop] at hlast
  have hrun := transcript_run hnil happend hstep hI hs h
  rw [transcript_add h, transcript_last hstop]
  exact happend hrun hlast

end

end RiscvSim.Simulation
