import Mathlib.Control.Monad.Basic

namespace RiscvSim.Results

variable {σ α β ι : Type}

/-- From a state with `I` the computation goes to one with `J`, and its value has `Q`. -/
def Sends (I : σ → Prop) (Q : α → Prop) (J : σ → Prop) (x : StateM σ α) : Prop :=
  ∀ s, I s → Q (x.run s).1 ∧ J (x.run s).2

namespace Sends

variable {I J K : σ → Prop} {Q : α → Prop} {R : β → Prop} {x : StateM σ α} {f : α → StateM σ β}

theorem pure {a : α} (h : Q a) : Sends I Q I (Pure.pure a : StateM σ α) := fun _ hs ↦ ⟨h, hs⟩

theorem bind (hx : Sends I Q J x) (hf : ∀ a, Q a → Sends J R K (f a)) : Sends I R K (x >>= f) := by
  intro s hs
  obtain ⟨ha, hs'⟩ := hx s hs
  exact hf _ ha _ hs'

/-- What a part of the state is, is known after it is read. -/
theorem gets (g : σ → α) (h : ∀ s, I s → Q (g s)) : Sends I Q I (do return g (← get) : StateM σ α) :=
  fun s hs ↦ ⟨h s hs, hs⟩

theorem get_bind {f : σ → StateM σ β} (h : ∀ s, Sends (fun t ↦ I t ∧ t = s) R K (f s)) :
    Sends I R K (get >>= f) := fun s hs ↦ h s s ⟨hs, rfl⟩

theorem modify {g : σ → σ} (h : ∀ s, I s → J (g s)) :
    Sends I (fun _ ↦ True) J (modify g : StateM σ PUnit) := fun s hs ↦ ⟨trivial, h s hs⟩

theorem ite {p : Prop} [Decidable p] {y : StateM σ α} (hx : p → Sends I Q J x) (hy : ¬ p → Sends I Q J y) :
    Sends I Q J (if p then x else y) := by
  split
  · next h => exact hx h
  · next h => exact hy h

theorem mono {I' J' : σ → Prop} (hx : Sends I Q J x) (hI : ∀ s, I' s → I s) (hJ : ∀ s, J s → J' s) :
    Sends I' Q J' x := fun s hs ↦ ⟨(hx s (hI s hs)).1, hJ _ (hx s (hI s hs)).2⟩

/-- A loop over a list, with an invariant for each part of it that is left. -/
theorem forM {I : List ι → σ → Prop} {g : ι → StateM σ PUnit} (l : List ι)
    (h : ∀ i l, Sends (I (i :: l)) (fun _ ↦ True) (I l) (g i)) :
    Sends (I l) (fun _ ↦ True) (I []) (l.forM g) := by
  induction l with
  | nil => exact fun s hs ↦ ⟨trivial, hs⟩
  | cons i l ih => exact (h i l).bind fun _ _ ↦ ih

end Sends

end RiscvSim.Results
