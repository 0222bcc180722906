import RiscvSim.Compositional

namespace RiscvSim

open Isa Ir State Results

namespace State

def withPC (pc : U32) (s : State) : State := { s with pc := pc }

def advance (offset : U32) (s : State) : State := s.withPC (s.pc + offset)

end State

namespace SingleStep

/-- What follows an instruction: `NEXT_INST` advances the program counter. -/
def finish : EStateM.Result Stop State Flow → EStateM.Result Stop State Unit
  | .ok .endTrace s => .ok () s
  | .ok .nextInst s => .ok () (s.advance 4)
  | .error e s => .error e s

/-- The machine that fetches, decodes and executes one instruction at a time. -/
def step : Run Unit := do
  let inst ← lift (Decoder.decoder_.decode (← getCmd (← getPC)))
  match ← inst.func_.exec inst 0 with
  | .endTrace => return
  | .nextInst => modify (advance 4)

end SingleStep

/-- An update of the state beside the registers, the memory and the host. -/
structure Aside {γ : Type} (upd : γ → State → State) : Prop where
  regs : ∀ c s, (upd c s).regs = s.regs
  mmu : ∀ c s, (upd c s).mmu = s.mmu
  world : ∀ c s, (upd c s).world = s.world
  setRegs : ∀ c s r, { upd c s with regs := r } = upd c { s with regs := r }
  setMmu : ∀ c s m, { upd c s with mmu := m } = upd c { s with mmu := m }
  setWorld : ∀ c s w, { upd c s with world := w } = upd c { s with world := w }

theorem aside_withPC : Aside withPC where
  regs _ _ := rfl
  mmu _ _ := rfl
  world _ _ := rfl
  setRegs _ _ _ := rfl
  setMmu _ _ _ := rfl
  setWorld _ _ _ := rfl

namespace Aside

variable {γ : Type} {upd : γ → State → State} (h : Aside upd)

include h

theorem getReg (reg : Reg) : Ignores upd (getReg reg) := Ignores.gets fun c s ↦ by rw [h.regs]

theorem setReg (reg : Reg) (val : U32) : Ignores upd (setReg reg val) :=
  Ignores.modify fun c s ↦ by rw [h.regs, h.setRegs]

theorem onMmu {α : Type} (x : EStateM Stop MMU α) : Ignores upd (onMmu x) := by
  unfold State.onMmu
  exact Ignores.zoom h.mmu (fun m c s ↦ h.setMmu c s m) x

theorem read (n : ℕ) (va : U32) : Ignores upd (read n va) := h.onMmu _

theorem write {n : ℕ} (va : U32) (data : BitVec (8 * n)) : Ignores upd (write va data) := h.onMmu _

theorem fgetc : Ignores upd Syscall.fgetc := by
  intro c s
  rw [Syscall.fgetc, run_bind_of_ok (EStateM.run_get _), run_bind_of_ok (EStateM.run_get _), h.world]
  cases s.world.stdin with
  | nil => rfl
  | cons d rest => exact congrArg (EStateM.Result.ok (some d)) (h.setWorld c s _)

theorem fputc (c : U8) : Ignores upd (Syscall.fputc c) :=
  Ignores.modify fun c s ↦ by rw [h.world, h.setWorld]

theorem gettimeofday : Ignores upd Syscall.gettimeofday := by
  intro c s
  change EStateM.Result.ok ((upd c s).world.clock (upd c s).world.asked)
    { upd c s with world := { (upd c s).world with asked := (upd c s).world.asked + 1 } } = .ok _ _
  rw [h.world, h.setWorld]

theorem compositional : Compositional (fun x ↦ Ignores upd x) where
  pure a := Ignores.pure a
  bind := Ignores.bind
  throw _ := Ignores.throw _
  lift x _ := Ignores.lift x
  getReg := h.getReg
  setReg := h.setReg
  read := h.read
  write := h.write
  fgetc := h.fgetc
  fputc := h.fputc
  gettimeofday := h.gettimeofday

end Aside

namespace Isa.ExecFunc

theorem exec_ignores {γ : Type} {upd : γ → State → State} (h : Aside upd) {func : ExecFunc}
    (hf : func.usesPC = false) (inst : Inst) (offset : U32) :
    Ignores upd (func.exec inst offset) := by
  refine exec_compositional h.compositional inst offset hf fun _ ↦ h.compositional.execCSRRW inst fun rs1 ↦ ?_
  exact Ignores.modify fun c s ↦ by rw [h.mmu, h.setMmu]

theorem exec_yields {func : ExecFunc} (hf : func.usesPC = false) (inst : Inst) (offset : U32) :
    Yields (· = Flow.nextInst) (func.exec inst offset) := by
  cases func with
  | ExecFENCE | ExecAUIPC | ExecJAL | ExecJALR | ExecBEQ | ExecBNE | ExecBLT | ExecBGE | ExecBLTU
  | ExecBGEU => cases hf
  | ExecDummy => exact .pure rfl
  | ExecECALL => exact .bind fun _ ↦ .bind fun _ ↦ .pure rfl
  | ExecLB | ExecLH | ExecLW | ExecLBU | ExecLHU =>
    exact .bind fun _ ↦ .bind fun _ ↦ .bind fun _ ↦ .pure rfl
  | ExecSB | ExecSH | ExecSW => exact .bind fun _ ↦ .bind fun _ ↦ .bind fun _ ↦ .pure rfl
  | ExecLUI => exact .bind fun _ ↦ .pure rfl
  | ExecADDI | ExecSLTI | ExecSLTIU | ExecXORI | ExecORI | ExecANDI | ExecSLLI | ExecSRLI
  | ExecSRAI => exact .bind fun _ ↦ .bind fun _ ↦ .bind fun _ ↦ .pure rfl
  | ExecCSRRW => exact .ite (.throw _) (.bind fun _ ↦ .bind fun _ ↦ .pure rfl)
  | _ => exact .bind fun _ ↦ .bind fun _ ↦ .bind fun _ ↦ .bind fun _ ↦ .pure rfl

theorem exec_offset_eq {func : ExecFunc} (hf : func.usesPC = false) (inst : Inst) (offset : U32) :
    func.exec inst offset = func.exec inst 0 := by
  cases func <;> first | rfl | cases hf

theorem exec_keepsPC {func : ExecFunc} (hf : func.usesPC = false) (inst : Inst) (offset : U32) :
    Keeps (fun s s' : State ↦ s'.pc = s.pc) (func.exec inst offset) := by
  intro s
  have h := exec_ignores aside_withPC hf inst offset s.pc s
  change (func.exec inst offset).run s = _ at h
  rw [h]
  cases (func.exec inst offset).run s <;> rfl

/-- An instruction at an offset behaves as it does at the start of a trace that begins there. -/
theorem exec_advance (func : ExecFunc) (inst : Inst) (offset : U32) (s : State) :
    (func.exec inst 0).run (s.advance offset) = match (func.exec inst offset).run s with
      | .ok .nextInst s' => .ok .nextInst (s'.advance offset)
      | .ok .endTrace s' => .ok .endTrace s'
      | .error e s' => .error e (s'.advance offset) := by
  cases hf : func.usesPC with
  | false =>
    have hpc := exec_keepsPC hf inst offset s
    have hy := exec_yields hf inst offset s
    rw [← exec_offset_eq hf inst offset, advance, exec_ignores aside_withPC hf inst offset]
    cases hr : (func.exec inst offset).run s with
    | ok flow s' =>
      rw [hr] at hpc
      obtain rfl := hy flow s' hr
      change s'.pc = s.pc at hpc
      simp only [mapState, advance, hpc]
    | error e s' =>
      rw [hr] at hpc
      change s'.pc = s.pc at hpc
      simp only [mapState, advance, hpc]
  | true =>
    have h0 : (s.advance offset).pc + 0 = s.pc + offset := BitVec.add_zero _
    cases func with
    | ExecFENCE =>
      change EStateM.Result.ok Flow.endTrace { s with
        mmu := s.mmu.flush, trace_cache := s.trace_cache.clear, pc := (s.advance offset).pc + 0 + 4 } = _
      rw [h0]
      rfl
    | ExecAUIPC =>
      change EStateM.Result.ok Flow.nextInst { s.advance offset with
        regs := s.regs.set inst.getRd ((s.advance offset).pc + 0 + inst.getImm) } = _
      rw [h0]
      rfl
    | ExecJAL =>
      change EStateM.Result.ok Flow.endTrace { s with
        regs := s.regs.set inst.getRd ((s.advance offset).pc + 0 + 4)
        pc := (s.advance offset).pc + 0 + inst.getImm * 2 } = _
      rw [h0]
      rfl
    | ExecJALR =>
      change EStateM.Result.ok Flow.endTrace { s with
        regs := s.regs.set inst.getRd ((s.advance offset).pc + 0 + 4)
        pc := ((s.regs.set inst.getRd ((s.advance offset).pc + 0 + 4)).get inst.getRs1 +
          inst.getImm) &&& ~~~1#32 } = _
      rw [h0]
      rfl
    | ExecBEQ | ExecBNE | ExecBLT | ExecBGE | ExecBLTU | ExecBGEU =>
      change EStateM.Result.ok Flow.endTrace (s.withPC (if _ then
        (s.advance offset).pc + 0 + inst.getImm * 2 else (s.advance offset).pc + 0 + 4)) = _
      rw [h0]
      rfl
    | _ => cases hf

end Isa.ExecFunc

end RiscvSim
