import RiscvSim.Finishes
import RiscvSim.NativePasses
import RiscvSim.Shifts
import RiscvSim.Stops
import RiscvSim.Library.Guards

namespace RiscvSim

open Isa Ir State Results

/-- An invariant that the operations of the interpreter keep; besides the exceptions of the simulator
they stop for reasons with `E` only. -/
structure Guarded (I : State → Prop) (E : Stop → Prop) : Prop where
  exception : ∀ e : Stop, e.IsException → E e
  regs : ∀ s r, I s → I { s with regs := r }
  pc : ∀ s pc, I s → I { s with pc := pc }
  world : ∀ s w, I s → I { s with world := w }
  satp : ∀ s v, I s → I { s with mmu := { s.mmu with satp := v } }
  flush : ∀ s, I s → I { s with mmu := s.mmu.flush, trace_cache := s.trace_cache.clear }
  read : ∀ n va, Guards I E (read n va)
  write : ∀ {n : ℕ} va (data : BitVec (8 * n)), Guards I E (write va data)

/-- The amount of a shift by an immediate is in range. -/
def Ir.Inst.ShiftsInRange (inst : Inst) : Prop :=
  inst.func_ = .ExecSLLI ∨ inst.func_ = .ExecSRLI ∨ inst.func_ = .ExecSRAI → inst.getImm.toNat < 32

namespace Guarded

variable {I : State → Prop} {E : Stop → Prop}

theorem getReg (reg : Reg) : Guards I E (getReg reg) := .bind .get fun _ ↦ .pure _

theorem getPC : Guards I E getPC := .bind .get fun _ ↦ .pure _

variable (h : Guarded I E)

include h

theorem setReg (reg : Reg) (val : U32) : Guards I E (setReg reg val) := .modify fun s hs ↦ h.regs s _ hs

theorem setPC (pc : U32) : Guards I E (setPC pc) := .modify fun s hs ↦ h.pc s pc hs

theorem fgetc : Guards I E Syscall.fgetc where
  ok s c s' hs hrun := by
    rw [Syscall.fgetc, run_bind_of_ok (EStateM.run_get s)] at hrun
    cases hin : s.world.stdin with
    | nil =>
      rw [hin] at hrun
      cases hrun
      exact hs
    | cons c rest =>
      rw [hin] at hrun
      cases hrun
      exact h.world s _ hs
  error s e s' hs hrun := by
    rw [Syscall.fgetc, run_bind_of_ok (EStateM.run_get s)] at hrun
    cases hin : s.world.stdin with
    | nil =>
      rw [hin] at hrun
      cases hrun
    | cons c rest =>
      rw [hin] at hrun
      cases hrun

theorem gettimeofday : Guards I E Syscall.gettimeofday where
  ok s c s' hs hrun := by
    cases hrun
    exact h.world s _ hs
  error s e s' hs hrun := by cases hrun

theorem readLoop (addr len : U32) (i n : ℕ) : Guards I E (Syscall.readLoop addr len i n) := by
  induction n generalizing i with
  | zero => exact h.setReg _ _
  | succ n ih =>
    refine h.fgetc.bind fun res ↦ ?_
    cases res with
    | none => exact h.setReg _ _
    | some c => exact (h.write _ _).bind fun _ ↦ ih _

theorem writeLoop (addr : U32) (i n : ℕ) : Guards I E (Syscall.writeLoop addr i n) := by
  induction n generalizing i with
  | zero => exact .pure _
  | succ n ih =>
    refine (h.read _ _).bind fun c ↦ ?_
    exact (Guards.modify fun s hs ↦ h.world s _ hs).bind fun _ ↦ ih _

theorem execSysCall (value : U32) : Guards I E (Syscall.execSysCall value) := by
  unfold Syscall.execSysCall
  split
  · exact h.setReg _ _
  · exact (getReg _).bind fun _ ↦ (getReg _).bind fun _ ↦ h.readLoop _ _ _ _
  · exact (getReg _).bind fun _ ↦ (getReg _).bind fun _ ↦
      (h.writeLoop _ _ _).bind fun _ ↦ h.setReg _ _
  · exact h.setReg _ _
  · exact .throw (h.exception _ ⟨_, rfl⟩)
  · exact (getReg _).bind fun _ ↦ (getReg _).bind fun _ ↦ h.gettimeofday.bind fun _ ↦
      (h.setReg _ _).bind fun _ ↦ (h.write _ _).bind fun _ ↦ h.write _ _
  · exact h.setReg _ _
  · exact .pure _

variable (inst : Inst) (offset : U32)

theorem regType {f : U32 → U32 → Except Stop U32} (hf : ∀ a b, ∃ c, f a b = .ok c) :
    Guards I E (ExecInst.regType inst f) := by
  refine (getReg _).bind fun a ↦ (getReg _).bind fun b ↦ (Guards.lift fun e he ↦ ?_).bind fun _ ↦
    (h.setReg _ _).bind fun _ ↦ .pure _
  obtain ⟨c, hc⟩ := hf a b
  rw [hc] at he
  cases he

/-- A shift by an amount in range, or one that may stop the run. -/
theorem immType {f : U32 → U32 → Except Stop U32}
    (hf : ∀ a, (∃ c, f a inst.getImm = .ok c) ∨ ∀ e, f a inst.getImm = .error e → E e) :
    Guards I E (ExecInst.immType inst f) := by
  refine (getReg _).bind fun a ↦ (Guards.lift fun e he ↦ ?_).bind fun _ ↦ (h.setReg _ _).bind fun _ ↦ .pure _
  rcases hf a with ⟨c, hc⟩ | hE
  · rw [hc] at he
    cases he
  · exact hE e he

theorem load (n : ℕ) (extend : BitVec (8 * n) → U32) : Guards I E (ExecInst.load inst n extend) :=
  (getReg _).bind fun _ ↦ (h.read _ _).bind fun _ ↦ (h.setReg _ _).bind fun _ ↦ .pure _

theorem store (n : ℕ) : Guards I E (ExecInst.store inst n) :=
  (getReg _).bind fun _ ↦ (getReg _).bind fun _ ↦ (h.write _ _).bind fun _ ↦ .pure _

theorem branch (cond : U32 → U32 → Bool) : Guards I E (ExecInst.branch inst offset cond) :=
  getPC.bind fun _ ↦ (getReg _).bind fun _ ↦ (getReg _).bind fun _ ↦ (h.setPC _).bind fun _ ↦ .pure _

theorem execCSRRW : Guards I E (ExecInst.execCSRRW inst) := by
  unfold ExecInst.execCSRRW
  split
  · exact .throw (h.exception _ ⟨_, rfl⟩)
  · exact (getReg _).bind fun _ ↦ (Guards.modify fun s hs ↦ h.satp s _ hs).bind fun _ ↦ .pure _

/-- Only a shift by an immediate out of range is undefined. -/
theorem exec {inst : Inst} (hshift : inst.ShiftsInRange ∨ E .undefinedBehaviour) :
    Guards I E (inst.func_.exec inst offset) := by
  have himm : ∀ {f : U32 → U32 → Except Stop U32} {g : U32 → U32 → U32},
      (inst.func_ = .ExecSLLI ∨ inst.func_ = .ExecSRLI ∨ inst.func_ = .ExecSRAI) →
      (∀ a n : U32, n.toNat < 32 → f a n = .ok (g a n)) →
      (∀ a n e, f a n = .error e → e = .undefinedBehaviour) → Guards I E (ExecInst.immType inst f) := by
    intro f g hfunc hok herr
    refine h.immType inst fun a ↦ ?_
    rcases hshift with hin | hub
    · exact .inl ⟨_, hok a _ (hin hfunc)⟩
    · exact .inr fun e he ↦ herr a _ e he ▸ hub
  have hamount : ∀ b : U32, (b &&& 0b11111).toNat < 32 := by
    intro b
    rw [Rv32i.toNat_and_31]
    exact Nat.mod_lt _ (by decide)
  cases hfunc : inst.func_ with
  | ExecDummy => exact .pure _
  | ExecECALL => exact (getReg _).bind fun _ ↦ (h.execSysCall _).bind fun _ ↦ .pure _
  | ExecFENCE =>
    exact (Guards.modify fun s hs ↦ h.flush s hs).bind fun _ ↦ getPC.bind fun _ ↦
      (h.setPC _).bind fun _ ↦ .pure _
  | ExecLB | ExecLH | ExecLW | ExecLBU | ExecLHU =>
    dsimp only [ExecFunc.exec]
    exact h.load _ _ _
  | ExecSB | ExecSH | ExecSW =>
    dsimp only [ExecFunc.exec]
    exact h.store _ _
  | ExecLUI => exact (h.setReg _ _).bind fun _ ↦ .pure _
  | ExecAUIPC => exact getPC.bind fun _ ↦ (h.setReg _ _).bind fun _ ↦ .pure _
  | ExecJAL => exact getPC.bind fun _ ↦ (h.setReg _ _).bind fun _ ↦ (h.setPC _).bind fun _ ↦ .pure _
  | ExecJALR =>
    exact getPC.bind fun _ ↦ (h.setReg _ _).bind fun _ ↦ (getReg _).bind fun _ ↦
      (h.setPC _).bind fun _ ↦ .pure _
  | ExecBEQ | ExecBNE | ExecBLT | ExecBGE | ExecBLTU | ExecBGEU =>
    dsimp only [ExecFunc.exec]
    exact h.branch _ _ _
  | ExecCSRRW => exact h.execCSRRW inst
  | ExecADDI | ExecSLTI | ExecSLTIU | ExecXORI | ExecORI | ExecANDI =>
    dsimp only [ExecFunc.exec]
    exact h.immType _ fun a ↦ .inl ⟨_, rfl⟩
  | ExecSLLI =>
    exact himm (.inl hfunc) (fun _ _ hn ↦ Rv32i.shiftLeft_eq hn) fun _ _ _ ↦ ExecInst.shiftLeft_error
  | ExecSRLI =>
    exact himm (.inr (.inl hfunc)) (fun _ _ hn ↦ Rv32i.shiftRight_eq hn) fun _ _ _ ↦ ExecInst.shiftRight_error
  | ExecSRAI =>
    exact himm (.inr (.inr hfunc)) (fun _ _ hn ↦ Rv32i.shiftRightArith_eq hn)
      fun _ _ _ ↦ ExecInst.shiftRightArith_error
  | ExecSLL => exact h.regType _ fun a b ↦ ⟨_, Rv32i.shiftLeft_eq (hamount b)⟩
  | ExecSRL => exact h.regType _ fun a b ↦ ⟨_, Rv32i.shiftRight_eq (hamount b)⟩
  | ExecSRA => exact h.regType _ fun a b ↦ ⟨_, Rv32i.shiftRightArith_eq (hamount b)⟩
  | ExecDIV | ExecREM => exact h.regType _ fun a b ↦ ⟨_, ExecInst.signed_guarded _ a b _ _⟩
  | ExecDIVU | ExecREMU => exact h.regType _ fun a b ↦ ⟨_, ExecInst.unsigned_guarded _ a b _⟩
  | ExecADD | ExecSUB | ExecSLT | ExecSLTU | ExecXOR | ExecOR | ExecAND | ExecMUL | ExecMULH | ExecMULHSU
  | ExecMULHU =>
    dsimp only [ExecFunc.exec]
    exact h.regType _ fun a b ↦ ⟨_, rfl⟩

omit h in
/-- The chain of a trace is left where the trace ends. -/
theorem execFrom {insts : List Inst} (ht : IsTrace insts)
    (hx : ∀ inst ∈ insts, ∀ offset, Guards I E (inst.func_.exec inst offset)) (k : ℕ) :
    Guards I E (execFrom k insts) := by
  induction insts generalizing k with
  | nil => exact absurd rfl ht.ne_nil
  | cons inst rest ih =>
    have hi := hx inst List.mem_cons_self (BitVec.ofNat 32 (4 * k))
    have hrest : IsTrace rest → Guards I E (RiscvSim.execFrom (k + 1) rest) :=
      fun htr ↦ ih htr (fun inst hi ↦ hx inst (List.mem_cons_of_mem _ hi)) (k + 1)
    constructor
    · intro s visited s' hs hrun
      obtain ⟨flow, s₁, h₁, h₂⟩ := run_bind_eq_ok.mp hrun
      rcases ht.flow h₁ with ⟨rfl, -⟩ | ⟨rfl, htr⟩
      · cases h₂
        exact hi.ok _ _ _ hs h₁
      · obtain ⟨more, s₂, h₃, h₄⟩ := run_bind_eq_ok.mp h₂
        cases h₄
        exact (hrest htr).ok _ _ _ (hi.ok _ _ _ hs h₁) h₃
    · intro s e s' hs hrun
      rcases run_bind_eq_error.mp hrun with he | ⟨flow, s₁, h₁, h₂⟩
      · exact hi.error _ _ _ hs he
      · rcases ht.flow h₁ with ⟨rfl, -⟩ | ⟨rfl, htr⟩
        · cases h₂
        · rcases run_bind_eq_error.mp h₂ with he | ⟨more, s₂, -, h₄⟩
          · exact (hrest htr).error _ _ _ (hi.ok _ _ _ hs h₁) he
          · cases h₄

end Guarded

namespace Trace

variable {I : State → Prop} {E : Stop → Prop} (hexc : ∀ e : Stop, e.IsException → E e) (hspent : E .outOfFuel)
  (hcmd : ∀ va, Guards I E (getCmd va))

include hexc hspent hcmd

theorem fetchFrom_guards (fuel : ℕ) (va : U32) : Guards I E (fetchFrom fuel va) := by
  induction fuel generalizing va with
  | zero => exact .throw hspent
  | succ fuel ih =>
    refine (hcmd va).bind fun cmd ↦ ?_
    have hdecode : Guards I E (lift (Decoder.decoder_.decode cmd) : Run Inst) :=
      .lift fun e he ↦ hexc e (Decoder.decode_defined cmd e he)
    exact hdecode.bind fun inst ↦ .ite (.pure _) ((ih _).bind fun _ ↦ .pure _)

theorem new_guards (host : Host) : Guards I E (new host) :=
  Guarded.getPC.bind fun pc ↦ (fetchFrom_guards hexc hspent hcmd _ pc).bind fun _ ↦ .pure _

end Trace

namespace Native

variable {I : State → Prop} {E : Stop → Prop} (h : Guarded I E) (hub : E .undefinedBehaviour)

include h

theorem store_guards {layout : Layout} {addr : U64} {w : ℕ} {v : BitVec w} {s s' : State}
    (hinsts : ∀ s n, I s → I { s with executed_insts := n })
    (hguest : ∀ (s : State) p {n : ℕ} (v : BitVec (8 * n)), I s → I { s with mmu := s.mmu.writeMem p v })
    (hI : I s) (hs : store layout addr v s = .ok s') : I s' := by
  unfold store at hs
  split at hs
  · split at hs
    · cases hs
      exact h.regs s _ hI
    · cases hs
  · split at hs
    · cases hs
      exact h.pc s _ hI
    · cases hs
  · cases hs
    exact hinsts s _ hI
  · split at hs
    · cases hs
      exact hguest s _ _ hI
    · cases hs
  · cases hs
  · cases hs

include hub

theorem call_guards (clobber : Clobber) (f : Callee) (regs : X86.Gp → U64) :
    Guards I E (call clobber f regs) := by
  constructor
  · intro s a s' hI hrun
    change call clobber f regs s = .ok a s' at hrun
    unfold call at hrun
    cases f with
    | read T =>
      dsimp only at hrun
      split at hrun
      · next hr =>
        cases hrun
        exact (h.read _ _).ok _ _ _ hI hr
      · cases hrun
    | write T =>
      dsimp only at hrun
      split at hrun
      · next hr =>
        cases hrun
        exact (h.write _ _).ok _ _ _ hI hr
      · cases hrun
  · intro s e s' hI hrun
    rw [(env_fails ⟨0#64, 0#64⟩ clobber).call f regs s e s' hrun]
    exact hub

end Native

/-- What the operations of the interpreter keep, native code keeps. -/
theorem Trace.native_guards {I : State → Prop} {E : Stop → Prop} (h : Guarded I E)
    (hub : E .undefinedBehaviour) (hspent : E .outOfFuel)
    (hinsts : ∀ s n, I s → I { s with executed_insts := n })
    (hguest : ∀ (s : State) p {n : ℕ} (v : BitVec (8 * n)), I s → I { s with mmu := s.mmu.writeMem p v })
    (host : Host) (code : NativeCode) : Guards I E (native host code) := by
  have hfails : (Native.env host.layout host.clobber).Fails E := by
    have hf := env_fails host.layout host.clobber
    refine ⟨hub, fun a w s e he ↦ ?_, fun a w v s e he ↦ ?_, fun f regs s e s' he ↦ ?_⟩
    · rw [hf.load a w s e he]
      exact hub
    · rw [hf.store a w v s e he]
      exact hub
    · rw [hf.call f regs s e s' he]
      exact hub
  have hrun := X86.run_guards hfails (fun _ _ _ _ _ hI hs ↦ Native.store_guards h hinsts hguest hI hs)
    (Native.call_guards h hub host.clobber) hspent code host.fuel code
  constructor
  · intro s u s' hI hn
    change native host code s = .ok u s' at hn
    unfold native at hn
    split at hn
    · next hr =>
      cases hn
      exact hrun.ok (Native.start host.layout (host.regs s) s) _ _ hI hr
    · cases hn
  · intro s e s' hI hn
    change native host code s = .error e s' at hn
    unfold native at hn
    split at hn
    · cases hn
    · next hr =>
      cases hn
      exact hrun.error (Native.start host.layout (host.regs s) s) _ _ hI hr

end RiscvSim
