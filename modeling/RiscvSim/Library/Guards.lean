import RiscvSim.Library.X86Run

namespace RiscvSim

namespace Results

variable {ε σ τ α β : Type}

/-- From a state with `I` the computation returns in one, or stops for a reason with `E`. -/
structure Guards (I : σ → Prop) (E : ε → Prop) (x : EStateM ε σ α) : Prop where
  ok : ∀ s a s', I s → x.run s = .ok a s' → I s'
  error : ∀ s e s', I s → x.run s = .error e s' → E e

namespace Guards

variable {I : σ → Prop} {E : ε → Prop}

theorem pure (a : α) : Guards I E (Pure.pure a : EStateM ε σ α) where
  ok s b s' hs h := by
    cases h
    exact hs
  error s e s' hs h := by cases h

theorem throw {e : ε} (he : E e) : Guards I E (throw e : EStateM ε σ α) where
  ok s a s' hs h := by cases h
  error s e' s' hs h := by
    cases h
    exact he

theorem lift {x : Except ε α} (hx : ∀ e, x = .error e → E e) : Guards I E (lift x) where
  ok s a s' hs h := by
    cases x with
    | ok b =>
      cases h
      exact hs
    | error e => cases h
  error s e s' hs h := by
    cases x with
    | ok b => cases h
    | error e' =>
      cases h
      exact hx e rfl

theorem get : Guards I E (get : EStateM ε σ σ) where
  ok s a s' hs h := by
    cases h
    exact hs
  error s e s' hs h := by cases h

theorem modify {f : σ → σ} (hf : ∀ s, I s → I (f s)) : Guards I E (modify f : EStateM ε σ Unit) where
  ok s a s' hs h := by
    cases h
    exact hf s hs
  error s e s' hs h := by cases h

theorem bind {x : EStateM ε σ α} {f : α → EStateM ε σ β} (hx : Guards I E x) (hf : ∀ a, Guards I E (f a)) :
    Guards I E (x >>= f) where
  ok s b s'' hs h := by
    obtain ⟨a, s', ha, hb⟩ := run_bind_eq_ok.mp h
    exact (hf a).ok s' b s'' (hx.ok s a s' hs ha) hb
  error s e s'' hs h := by
    rcases run_bind_eq_error.mp h with he | ⟨a, s', ha, he⟩
    · exact hx.error s e s'' hs he
    · exact (hf a).error s' e s'' (hx.ok s a s' hs ha) he

theorem ite {p : Prop} [Decidable p] {x y : EStateM ε σ α} (hx : Guards I E x) (hy : Guards I E y) :
    Guards I E (if p then x else y) := by
  split
  · exact hx
  · exact hy

/-- A part of the state with an invariant of its own. -/
theorem zoom {get : σ → τ} {set : τ → σ → σ} {J : τ → Prop} {x : EStateM ε τ α} (hx : Guards J E x)
    (hget : ∀ s, I s → J (get s)) (hset : ∀ s t, I s → J t → I (set t s)) :
    Guards I E (zoom get set x) where
  ok s a s' hs h := by
    rw [run_zoom] at h
    cases hr : x.run (get s) with
    | ok b t =>
      rw [hr] at h
      cases h
      exact hset s t hs (hx.ok _ _ _ (hget s hs) hr)
    | error e t =>
      rw [hr] at h
      cases h
  error s e s' hs h := by
    rw [run_zoom] at h
    cases hr : x.run (get s) with
    | ok b t =>
      rw [hr] at h
      cases h
    | error e' t =>
      rw [hr] at h
      cases h
      exact hx.error _ _ _ (hget s hs) hr

/-- What is kept whatever happens is kept by the computations that return. -/
theorem of_keeps {R : σ → σ → Prop} {x : EStateM ε σ α} (hx : Keeps R x) (ht : Throws E x)
    (hR : ∀ s s', R s s' → I s → I s') : Guards I E x :=
  ⟨fun s _ s' hs h ↦ hR s s' (hx.of_ok h) hs, fun s e s' _ h ↦ ht s e s' h⟩

theorem mono {E' : ε → Prop} {x : EStateM ε σ α} (hx : Guards I E x) (hE : ∀ e, E e → E' e) :
    Guards I E' x :=
  ⟨hx.ok, fun s e s' hs h ↦ hE e (hx.error s e s' hs h)⟩

theorem and {J : σ → Prop} {x : EStateM ε σ α} (hx : Guards I E x) (hy : Guards J E x) :
    Guards (fun s ↦ I s ∧ J s) E x :=
  ⟨fun s a s' hs h ↦ ⟨hx.ok s a s' hs.1 h, hy.ok s a s' hs.2 h⟩, fun s e s' hs h ↦ hx.error s e s' hs.1 h⟩

end Guards

end Results

namespace X86

open Results

variable {F σ ε : Type} {env : Env F σ ε} {spent : ε} {I : σ → Prop} {E : ε → Prop}
  (hfails : env.Fails E) (hstore : ∀ a w (v : BitVec w) s s', I s → env.store a v s = .ok s' → I s')
  (hcall : ∀ f regs, Guards I E (env.call f regs))

include hfails hstore hcall

/-- What stores and calls keep, an instruction keeps. -/
theorem exec_guards (i : Inst F) : Guards (fun m : Machine σ ↦ I m.world) E (exec env i) where
  ok m u m' hm h := by
    have : Std.Refl fun s s' : σ ↦ I s → I s' := ⟨fun _ hs ↦ hs⟩
    have hassigns : ∀ {dst}, Assigns env dst m m' → I m'.world := fun ha ↦
      ha.world (R := fun s s' ↦ I s → I s') (fun a w v s s' hs hi ↦ hstore a w v s s' hi hs) hm
    cases i with
    | call f =>
      obtain ⟨regs, s, hc, rfl⟩ := exec_call_ok h
      exact (hcall f m.regs).ok _ _ _ hm hc
    | bin id dst src => exact hassigns (execBin_assigns (execBin_of_exec h))
    | set c dst =>
      rw [exec, run_bind_of_ok (EStateM.run_get m)] at h
      exact hassigns (execSet_assigns (run_set_lift h))
    | mul src =>
      rw [exec, run_bind_of_ok (EStateM.run_get m)] at h
      obtain ⟨w, p, q, rfl⟩ := execMul_ok (run_set_lift h)
      exact hm
    | push src =>
      rw [exec, run_bind_of_ok (EStateM.run_get m)] at h
      obtain ⟨v, rfl⟩ := execPush_ok (run_set_lift h)
      exact hm
    | pop dst =>
      rw [exec, run_bind_of_ok (EStateM.run_get m)] at h
      obtain ⟨r, w, v, stack, -, rfl⟩ := execPop_ok (run_set_lift h)
      exact hm
    | jcc | jmp | ret => cases h
  error m e m' hm h := exec_fails hfails h

theorem run_guards (hspent : E spent) (code : List (Item F)) (fuel : ℕ) (rest : List (Item F)) :
    Guards (fun m : Machine σ ↦ I m.world) E (run env spent code fuel rest) := by
  have hjump : ∀ label, Guards (fun m : Machine σ ↦ I m.world) E (jump env code label) := by
    intro label
    rw [jump]
    cases after label code with
    | some rest => exact .pure _
    | none => exact .throw hfails.fault
  induction fuel generalizing rest with
  | zero => exact .throw hspent
  | succ fuel ih =>
    cases rest with
    | nil => exact .throw hfails.fault
    | cons item rest =>
      cases item with
      | label n => exact ih rest
      | inst i =>
        cases i with
        | ret => exact .pure ()
        | jmp l => exact (hjump l).bind ih
        | jcc c l =>
          refine Guards.get.bind fun m ↦ ?_
          cases m.flags with
          | none => exact .throw hfails.fault
          | some f =>
            dsimp only
            exact .ite ((hjump l).bind ih) (ih rest)
        | bin | set | mul | push | pop | call => exact (exec_guards hfails hstore hcall _).bind fun _ ↦ ih rest

end X86

end RiscvSim
