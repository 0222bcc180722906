import RiscvSim.Library.Results
import Mathlib.Data.Nat.Notation

namespace RiscvSim.Simulation

open Results

variable {σ τ ι ο ε α : Type}

/-- The outputs of a machine along a list of inputs, and its last state. -/
def run (step : ι → σ → ο × σ) : List ι → σ → List ο × σ
  | [], s => ([], s)
  | i :: is, s => ((step i s).1 :: (run step is (step i s).2).1, (run step is (step i s).2).2)

/-- Every input of the list meets `P` in the state it is given in. -/
def Along (step : ι → σ → ο × σ) (P : ι → σ → Prop) : List ι → σ → Prop
  | [], _ => True
  | i :: is, s => P i s ∧ Along step P is (step i s).2

theorem along_cons {step : ι → σ → ο × σ} {P : ι → σ → Prop} {i : ι} {is : List ι} {s : σ} :
    Along step P (i :: is) s ↔ P i s ∧ Along step P is (step i s).2 := Iff.rfl

def attempt (x : EStateM ε σ α) (s : σ) : Except ε α × σ :=
  match x.run s with
  | .ok a s' => (.ok a, s')
  | .error e s' => (.error e, s')

theorem attempt_of_ok {x : EStateM ε σ α} {s s' : σ} {a : α} (h : x.run s = .ok a s') :
    attempt x s = (.ok a, s') := by
  rw [attempt, h]

theorem run_eq {step : ι → σ → ο × σ} {step' : ι → τ → ο × τ} {R : σ → τ → Prop} {P : ι → σ → Prop}
    (h : ∀ i s t, R s t → P i s → (step i s).1 = (step' i t).1 ∧ R (step i s).2 (step' i t).2)
    (is : List ι) {s : σ} {t : τ} (hP : Along step P is s) (hR : R s t) :
    (run step is s).1 = (run step' is t).1 ∧ R (run step is s).2 (run step' is t).2 := by
  induction is generalizing s t with
  | nil => exact ⟨rfl, hR⟩
  | cons i is ih =>
    obtain ⟨ho, hR'⟩ := h i s t hR hP.1
    obtain ⟨hos, hR''⟩ := ih hP.2 hR'
    exact ⟨by rw [run, run, ho, hos], hR''⟩

theorem attempt_eq {x : EStateM ε σ α} {y : EStateM ε τ α} {R : σ → τ → Prop} {s : σ} {t : τ}
    (h : Alike Eq R R (x.run s) (y.run t)) :
    (attempt x s).1 = (attempt y t).1 ∧ R (attempt x s).2 (attempt y t).2 := by
  unfold attempt
  generalize x.run s = r at h ⊢
  generalize y.run t = r' at h ⊢
  cases h with
  | ok ha hr => exact ⟨congrArg Except.ok ha, hr⟩
  | error he => exact ⟨rfl, he⟩

def iterate (x : EStateM ε σ Unit) : ℕ → EStateM ε σ Unit
  | 0 => pure ()
  | n + 1 => do
    x
    iterate x n

theorem iterate_add {x : EStateM ε σ Unit} {m : ℕ} {s s' : σ} (h : (iterate x m).run s = .ok () s')
    (n : ℕ) : (iterate x (m + n)).run s = (iterate x n).run s' := by
  induction m generalizing s with
  | zero =>
    cases h
    rw [Nat.zero_add]
  | succ m ih =>
    obtain ⟨u, s₁, hx, hr⟩ := run_bind_eq_ok.mp h
    rw [Nat.add_right_comm, iterate, run_bind_of_ok hx, ih hr]

theorem iterate_add_eq_ok {x : EStateM ε σ Unit} {m n : ℕ} {s s' : σ} :
    (iterate x (m + n)).run s = .ok () s' ↔
      ∃ u, (iterate x m).run s = .ok () u ∧ (iterate x n).run u = .ok () s' := by
  constructor
  · intro h
    induction m generalizing s with
    | zero => exact ⟨s, rfl, by rwa [Nat.zero_add] at h⟩
    | succ m ih =>
      rw [Nat.add_right_comm] at h
      obtain ⟨u, s₁, hx, hr⟩ := run_bind_eq_ok.mp h
      obtain ⟨v, hv, hn⟩ := ih hr
      exact ⟨v, by rw [iterate, run_bind_of_ok hx, hv], hn⟩
  · rintro ⟨u, hm, hn⟩
    rw [iterate_add hm, hn]

theorem iterate_one {x : EStateM ε σ Unit} {s s' : σ} :
    (iterate x 1).run s = .ok () s' ↔ x.run s = .ok () s' := by
  constructor
  · intro h
    obtain ⟨u, s₁, hx, hr⟩ := run_bind_eq_ok.mp h
    cases hr
    exact hx
  · intro h
    rw [iterate, run_bind_of_ok h]
    rfl

theorem le_of_iterate_stops {x : EStateM ε σ Unit} {m n : ℕ} {s t t' u : σ} {e : ε}
    (ht : (iterate x m).run s = .ok () t) (hstop : x.run t = .error e t')
    (hu : (iterate x n).run s = .ok () u) : n ≤ m := by
  refine Nat.le_of_not_lt fun hlt ↦ ?_
  obtain ⟨k, rfl⟩ := Nat.exists_eq_add_of_lt hlt
  rw [Nat.add_right_comm] at hu
  obtain ⟨v, hv, -⟩ := iterate_add_eq_ok.mp hu
  obtain ⟨w, hw, h₁⟩ := iterate_add_eq_ok.mp hv
  rw [ht] at hw
  cases hw
  rw [iterate_one, hstop] at h₁
  cases h₁

/-- Two machines whose rounds keep a relation end alike; `R n` may ask what `n` more rounds need. -/
theorem iterate_alike {x : EStateM ε σ Unit} {y : EStateM ε τ Unit} {R : ℕ → σ → τ → Prop}
    {E : σ → τ → Prop}
    (h : ∀ n s t, R (n + 1) s t → Alike Eq (R n) E (x.run s) (y.run t)) (n : ℕ) {s : σ} {t : τ}
    (hR : R n s t) : Alike Eq (R 0) E ((iterate x n).run s) ((iterate y n).run t) := by
  induction n generalizing s t with
  | zero => exact .ok rfl hR
  | succ n ih => exact (h n s t hR).bind fun _ _ s' t' _ hR' ↦ ih hR'

end RiscvSim.Simulation
