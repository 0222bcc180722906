import RiscvSim.SafeTemplates

namespace RiscvSim

open Isa Ir X86 Results Native State ExecInst Translator TranslateInst

theorem stable_mode : Stable fun s s' ↦ MMU.SameMode s.mmu s'.mmu where
  refl := ⟨fun s ↦ refl s.mmu⟩
  trans := ⟨fun _ _ _ h h' ↦ IsTrans.trans _ _ _ h h'⟩
  regs s _ := refl s.mmu
  pc s _ := refl s.mmu
  world s _ := refl s.mmu
  mmu _ _ h := h

/-- FENCE and CSRRW have no translation. -/
theorem not_flushed {inst : Inst} (hsup : inst.isTranslationSupported = true) :
    inst.func_ ≠ .ExecFENCE ∧ inst.func_ ≠ .ExecCSRRW := by
  have hnone : ∀ desc ∈ cmd_desc, desc.exec_func = .ExecFENCE ∨ desc.exec_func = .ExecCSRRW →
      desc.translate_func = none := by decide
  have hdesc := hnone (getCmdDesc inst.cmd_) (List.get_mem _ _)
  rw [Inst.isTranslationSupported] at hsup
  constructor
  · intro hf
    rw [hdesc (.inl hf)] at hsup
    cases hsup
  · intro hf
    rw [hdesc (.inr hf)] at hsup
    cases hsup

theorem exec_keeps_mode {inst : Inst} (hsup : inst.isTranslationSupported = true) (offset : U32) :
    Keeps (fun s s' ↦ MMU.SameMode s.mmu s'.mmu) (inst.func_.exec inst offset) :=
  ExecFunc.exec_keeps stable_mode.data (not_flushed hsup).1 (not_flushed hsup).2 inst offset

variable {layout : Layout} {clobber : Clobber} {insts : List Inst} {s s' t : State} {k : ℕ}

theorem Arrives.mode (h : Arrives insts s k t) (hsup : ∀ inst ∈ insts, inst.isTranslationSupported = true) :
    MMU.SameMode s.mmu t.mmu := by
  induction h with
  | first => exact refl s.mmu
  | next _ hi hx ih =>
    have hlast := (exec_keeps_mode (hsup _ (List.mem_of_getElem? hi)) _).of_ok hx
    exact IsTrans.trans _ _ _ ih hlast

theorem Execution.mode (h : Execution insts s s')
    (hsup : ∀ inst ∈ insts, inst.isTranslationSupported = true) : MMU.SameMode s.mmu s'.mmu := by
  obtain ⟨visited, t, hx, rfl⟩ := h
  have hmode : MMU.SameMode s.mmu t.mmu :=
    (execFrom_keeps_of stable_mode.data 0 fun inst hi ↦ exec_keeps_mode (hsup inst hi)).of_ok hx
  exact hmode

/-- Paging is off, and the guest memory lies beside the state. -/
structure Native.Bare (layout : Layout) (s : State) : Prop where
  virt : s.mmu.isVirtualAddressing = false
  side : layout.Beside s.mmu.pmem_size_

theorem Native.Bare.mode (h : Native.Bare layout s) (hm : MMU.SameMode s.mmu t.mmu) :
    Native.Bare layout t := by
  constructor
  · rw [hm.virt]
    exact h.virt
  · rw [hm.size]
    exact h.side

/-- In the executions from `s` that end in a jump back, the translator's template of every instruction
that is reached is safe. -/
def SafeAlong (insts : List Inst) (s : State) : Prop :=
  ∀ t, Relation.ReflTransGen (fun s s' ↦ Execution insts s s' ∧ Again insts s') s t →
    ∀ i inst u, insts[i]? = some inst → Arrives insts t i u →
      (prepared Inst.translate insts false i inst).Safe inst u

namespace SafeAlong

theorem next (h : SafeAlong insts s) (hx : Execution insts s s') (hagain : Again insts s') :
    SafeAlong insts s' :=
  fun t ht ↦ h t (ht.head ⟨hx, hagain⟩)

section

variable {body : List Inst} {last : Inst} (hbody : ∀ inst ∈ body, inst.isTerminator = false)
  (hsup : ∀ inst ∈ body ++ [last], inst.isTranslationSupported = true)
  (hd : ∀ inst ∈ body ++ [last], Decodes inst) (h : SafeAlong (body ++ [last]) s) (hbare : Native.Bare layout s)

include hbody hsup hd h hbare

theorem arrives : ∃ t, Arrives (body ++ [last]) s body.length t := by
  rcases arrives_or_throws_body hbody s with harrives | ⟨i, hi, t, inst, e, t', harr, hinst, hx⟩
  · exact harrives
  · have hmem := List.mem_of_getElem? hinst
    have hvirt := (hbare.mode (harr.mode hsup)).virt
    obtain ⟨u, hu⟩ := exec_safe (h s .refl i inst t hinst harr) (hsup inst hmem)
      (hbody inst (getElem_body hi hinst)) (hd inst hmem) hvirt (BitVec.ofNat 32 (4 * i))
    rw [hu] at hx
    cases hx

theorem total (hlast : last.getCmd ∈ transferTypes) : ∃ s', Execution (body ++ [last]) s s' := by
  obtain ⟨t, ht⟩ := h.arrives hbody hsup hd hbare
  obtain ⟨t', hx⟩ := exec_transfer hlast (BitVec.ofNat 32 (4 * body.length)) t
  exact ⟨_, (execution_iff ht hx).mpr rfl⟩

theorem always : AlwaysRightOn layout clobber (body ++ [last]) false body.length s := by
  intro t ht
  have hmode : MMU.SameMode s.mmu t.mmu := by
    induction ht with
    | refl => exact refl s.mmu
    | tail _ hx ih => exact IsTrans.trans _ _ _ ih (hx.1.mode hsup)
  intro i hi inst u hinst hu
  have hmem := List.mem_of_getElem? hinst
  have hbare' := (hbare.mode hmode).mode (hu.mode hsup)
  have hat : (prepared Inst.translate (body ++ [last]) false i inst).At (body ++ [last]) false i := by
    have hlt := (List.getElem?_eq_some_iff.mp hinst).1
    refine at_prepared hlt.le (plainOn_prepared fun j hj inst' hinst' ↦ ?_)
    have hmem' := getElem_body (hj.trans hi) hinst'
    exact plain_of_supported (hsup inst' (List.mem_append_left _ hmem'))
      (opcode_of_not_isTerminator (hbody inst' hmem'))
  exact rightOn_safe (h t ht i inst u hinst hu) (hsup inst hmem) (hbody inst (getElem_body hi hinst))
    (hd inst hmem) hat hbare'.virt hbare'.side

end

end SafeAlong

/-- With all its templates safe, each run of native code is an execution, and there always is one. -/
theorem passes_safe {code : NativeCode} (ht : IsTrace insts) (hd : ∀ inst ∈ insts, Decodes inst)
    (hf : getFunc insts false = some code) :
    Passes (env layout clobber) code
      (fun m ↦ Ready layout m ∧ Native.Bare layout m.world ∧ SafeAlong insts m.world)
      Machine.world (Execution insts) (Again insts) ∧
    ∀ s, Native.Bare layout s → SafeAlong insts s → ∃ s', Execution insts s s' := by
  obtain ⟨body, last, rfl, hlast, hbody⟩ := ht.split
  have hsup := supported_of_getFunc hf
  have hcmd := transfer_of_terminator (hsup last (List.mem_append_right _ (List.mem_singleton_self last))) hlast
  refine ⟨(passes_prepared hcmd hbody hf).restrict (fun m hm ↦ ⟨hm.1, ?_⟩) ?_, fun s hbare hsafe ↦ ?_⟩
  · exact hm.2.2.always hbody hsup hd hm.2.1
  · intro m m' hm hm' hpass hagain
    exact ⟨hm'.1, hm.2.1.mode (hpass.mode hsup), hm.2.2.next hpass hagain⟩
  · exact hsafe.total hbody hsup hd hbare hcmd

/-- With all its templates safe, native code is the interpreter: a call that returns has made the
executions up to the first that does not jump back, with enough fuel each such run of executions is
what a call makes, and for want of fuel alone a call does not return. -/
theorem getFunc_executes {code : NativeCode} {m₀ : Machine State} (ht : IsTrace insts)
    (hd : ∀ inst ∈ insts, Decodes inst) (hf : getFunc insts false = some code) (hm : Ready layout m₀)
    (hbare : Native.Bare layout m₀.world) (hsafe : SafeAlong insts m₀.world) :
    (∀ fuel m, (run (env layout clobber) .outOfFuel code fuel code).run m₀ = .ok () m →
      ∃ n, Repeats (Execution insts) (Again insts) n m₀.world m.world) ∧
    (∀ n s', Repeats (Execution insts) (Again insts) n m₀.world s' →
      ∃ m, m.world = s' ∧ Returns (env layout clobber) code m₀ m) ∧
    ∀ fuel e m, (run (env layout clobber) .outOfFuel code fuel code).run m₀ = .error e m →
      e = .outOfFuel := by
  obtain ⟨hpasses, htotal⟩ := passes_safe ht hd hf
  have hstart := And.intro hm (And.intro hbare hsafe)
  refine ⟨fun fuel m hr ↦ hpasses.repeats hstart hr, fun n s' hn ↦ hpasses.of_repeats hstart hn,
    fun fuel e m hr ↦ hpasses.spent (fun m hm ↦ ?_) hstart hr⟩
  exact htotal m.world hm.2.1 hm.2.2

namespace countdown

def loop : List Inst := [genI .ADDI 1 1 (-1), genR .SUB 2 2 1, genB .BNE (-4) 1 0]

theorem safe {inst : Inst} {i : ℕ} (hi : loop[i]? = some inst) (s : State) :
    (prepared Inst.translate loop false i inst).Safe inst s := by
  rcases i with _ | _ | _ | i
  · cases hi
    exact ⟨by decide, fun h ↦ absurd h (by decide), fun h ↦ absurd h (by decide),
      fun h ↦ absurd h (by decide), fun h ↦ absurd h (by decide), fun h ↦ absurd h (by decide)⟩
  · cases hi
    exact ⟨by decide, fun _ ↦ .inl (by decide), fun h ↦ absurd h (by decide),
      fun h ↦ absurd h (by decide), fun h ↦ absurd h (by decide), fun h ↦ absurd h (by decide)⟩
  · cases hi
    exact ⟨by decide, fun h ↦ absurd h (by decide), fun h ↦ absurd h (by decide),
      fun h ↦ absurd h (by decide), fun h ↦ absurd h (by decide), fun h ↦ absurd h (by decide)⟩
  · cases hi

end countdown

/-- `addi x1, x1, -1`, `sub x2, x2, x1` and `bne x1, x0, -8`, entered with 2 in `x1`. -/
theorem getFunc_executes_countdown :
    let addi := genI ⟨.ADDI, by decide⟩ 1 1 (-1)
    let sub := genR ⟨.SUB, by decide⟩ 2 2 1
    let bne := genB ⟨.BNE, by decide⟩ (-4) 1 0
    ∃ code m, getFunc [addi, sub, bne] false = some code ∧ m.world.regs.get 1 = 0 ∧
      m.world.regs.get 2 = 0xffffffff ∧ m.world.executed_insts = 6 ∧
      Returns (env ⟨0, 0x1000⟩ fun _ _ _ ↦ 0) code
        (start ⟨0, 0x1000⟩ (fun _ ↦ 0) (atEntry (Regs.fill0.set 1 2)).world) m := by
  intro addi sub bne
  let down : State → State := fun s ↦ { s with regs := s.regs.set 1 (s.regs.get 1 + -1) }
  let add : State → State := fun s ↦ { s with regs := s.regs.set 2 (s.regs.get 2 - s.regs.get 1) }
  let pass : State → State := fun s ↦
    { branched bne 8 (add (down s)) with executed_insts := s.executed_insts + 3 }
  let s₀ : State := (atEntry (Regs.fill0.set 1 2)).world
  have hpass : ∀ s, Execution [addi, sub, bne] s (pass s) := fun s ↦ ⟨[0, 1, 2], _, rfl, rfl⟩
  have hsafe : SafeAlong [addi, sub, bne] s₀ := by
    intro t _ i inst u hinst _
    exact countdown.safe hinst u
  have hloops : Loops [addi, sub, bne] := ⟨bne, rfl, rfl, by decide⟩
  have htwice : Repeats (Execution [addi, sub, bne]) (Again [addi, sub, bne]) 2 s₀ (pass (pass s₀)) := by
    refine .more (hpass s₀) ⟨hloops, bne, rfl, by decide⟩ (.once (hpass _) ?_)
    rintro ⟨-, inst, hinst, htaken⟩
    cases hinst
    exact absurd htaken (by decide)
  obtain ⟨code, hcode⟩ : ∃ code, getFunc [addi, sub, bne] false = some code := ⟨_, rfl⟩
  have ht : IsTrace [addi, sub, bne] := ⟨rfl, rfl, rfl⟩
  have hd : ∀ inst ∈ [addi, sub, bne], Decodes inst := by
    intro inst hi
    simp only [List.mem_cons, List.not_mem_nil, or_false] at hi
    rcases hi with rfl | rfl | rfl <;> exact ⟨fun h ↦ absurd h (by decide)⟩
  have hbare : Native.Bare ⟨0, 0x1000⟩ s₀ := by
    refine ⟨by decide, fun va hva ↦ ?_⟩
    replace hva : va.toNat < 4096 := hva
    change 152 ≤ (0x1000#64 + va.setWidth 64 - 0#64).toNat
    bv_omega
  have hm : Ready ⟨0, 0x1000⟩ (start ⟨0, 0x1000⟩ (fun _ ↦ 0) s₀) := rfl
  obtain ⟨-, hruns, -⟩ := @getFunc_executes ⟨0, 0x1000⟩ (fun _ _ _ ↦ 0) _ code _ ht hd hcode hm hbare hsafe
  obtain ⟨m, hworld, hreturns⟩ := hruns 2 _ htwice
  refine ⟨code, m, hcode, ?_, ?_, ?_, hreturns⟩ <;> rw [hworld] <;> decide

end RiscvSim
