import RiscvSim.Sim
import RiscvSim.Library.Frames

namespace RiscvSim

open Isa Ir State Results

/-- A property of computations that the operations on registers and memory have and that composition
keeps. -/
structure Silent (P : ∀ {α : Type}, Run α → Prop) : Prop where
  pure : ∀ {α : Type} (a : α), P (Pure.pure a)
  bind : ∀ {α β : Type} {x : Run α} {f : α → Run β}, P x → (∀ a, P (f a)) → P (x >>= f)
  throw : ∀ {α : Type} (what : String), P (throw (.simException what) : Run α)
  lift : ∀ {α : Type} (x : Except Stop α), (∀ e, x = .error e → e = .undefinedBehaviour) → P (lift x)
  getReg : ∀ reg, P (getReg reg)
  setReg : ∀ reg val, P (setReg reg val)
  read : ∀ n va, P (read n va)
  write : ∀ {n : ℕ} va (data : BitVec (8 * n)), P (write va data)

/-- One that the operations on the host have too. -/
structure Compositional (P : ∀ {α : Type}, Run α → Prop) : Prop extends Silent P where
  fgetc : P Syscall.fgetc
  fputc : ∀ c, P (Syscall.fputc c)
  gettimeofday : P Syscall.gettimeofday

namespace ExecInst

theorem shiftLeft_error {a n : U32} {e : Stop} (h : shiftLeft a n = .error e) : e = .undefinedBehaviour := by
  rw [shiftLeft] at h
  split at h
  · cases h
  · cases h
    rfl

theorem shiftRight_error {a n : U32} {e : Stop} (h : shiftRight a n = .error e) :
    e = .undefinedBehaviour := by
  rw [shiftRight] at h
  split at h
  · cases h
  · cases h
    rfl

theorem shiftRightArith_error {a n : U32} {e : Stop} (h : shiftRightArith a n = .error e) :
    e = .undefinedBehaviour := by
  have hlast : ∀ mask, (do return (← shiftRight a n) ||| mask : Except Stop U32) = .error e →
      e = .undefinedBehaviour := by
    intro mask he
    rcases bind_error he with he | ⟨v, -, hv⟩
    · exact shiftRight_error he
    · cases hv
  rw [shiftRightArith] at h
  split at h
  · rcases bind_error h with hm | ⟨mask, -, hr⟩
    · cases hs : shiftRight (~~~0#32) n with
      | ok v =>
        rw [hs] at hm
        cases hm
      | error e' =>
        rw [hs] at hm
        cases hm
        exact shiftRight_error hs
    · exact hlast mask hr
  · exact hlast 0#32 h

/-- The guards of `ExecDIV` and `ExecREM` leave no division that is undefined. -/
theorem signed_guarded (f : U32 → U32 → U32) (a b x y : U32) :
    (if b = 0 then .ok x else if b = -1 ∧ a = 0x80000000 then .ok y else signedDivision f a b) =
      .ok (if b = 0 then x else if b = -1 ∧ a = 0x80000000 then y else f a b) := by
  by_cases hb : b = 0
  · rw [if_pos hb, if_pos hb]
  · rw [if_neg hb, if_neg hb]
    by_cases hm : b = -1 ∧ a = 0x80000000
    · rw [if_pos hm, if_pos hm]
    · rw [if_neg hm, if_neg hm, signedDivision, if_neg fun h ↦ h.elim hb fun h ↦ hm h.symm]

theorem unsigned_guarded (f : U32 → U32 → U32) (a b x : U32) :
    (if b ≠ 0 then unsignedDivision f a b else .ok x) = .ok (if b ≠ 0 then f a b else x) := by
  by_cases hb : b = 0
  · rw [if_neg (not_not.mpr hb), if_neg (not_not.mpr hb)]
  · rw [if_pos hb, if_pos hb, unsignedDivision, if_neg hb]

end ExecInst

namespace Silent

variable {P : ∀ {α : Type}, Run α → Prop} (h : Silent P)

include h

theorem regType (inst : Inst) {f : U32 → U32 → Except Stop U32}
    (hf : ∀ a b e, f a b = .error e → e = .undefinedBehaviour) : P (ExecInst.regType inst f) :=
  h.bind (h.getReg _) fun _ ↦ h.bind (h.getReg _) fun _ ↦ h.bind (h.lift _ (hf _ _)) fun _ ↦
    h.bind (h.setReg _ _) fun _ ↦ h.pure _

theorem immType (inst : Inst) {f : U32 → U32 → Except Stop U32}
    (hf : ∀ a b e, f a b = .error e → e = .undefinedBehaviour) : P (ExecInst.immType inst f) :=
  h.bind (h.getReg _) fun _ ↦ h.bind (h.lift _ (hf _ _)) fun _ ↦ h.bind (h.setReg _ _) fun _ ↦ h.pure _

theorem load (inst : Inst) (n : ℕ) (extend : BitVec (8 * n) → U32) : P (ExecInst.load inst n extend) :=
  h.bind (h.getReg _) fun _ ↦ h.bind (h.read _ _) fun _ ↦ h.bind (h.setReg _ _) fun _ ↦ h.pure _

theorem store (inst : Inst) (n : ℕ) : P (ExecInst.store inst n) :=
  h.bind (h.getReg _) fun _ ↦ h.bind (h.getReg _) fun _ ↦ h.bind (h.write _ _) fun _ ↦ h.pure _

theorem execCSRRW (inst : Inst) (hs : ∀ rs1 : U32, P (modify fun s ↦ { s with
      mmu := { s.mmu with satp := s.mmu.satp ||| (rs1 &&& 0x80000000) } } : Run Unit)) :
    P (ExecInst.execCSRRW inst) := by
  unfold ExecInst.execCSRRW
  split
  · exact h.throw _
  · exact h.bind (h.getReg _) fun rs1 ↦ h.bind (hs rs1) fun _ ↦ h.pure _

section

variable (hg : P getPC) (hs : ∀ pc, P (setPC pc))

include hg hs

theorem branch (inst : Inst) (offset : U32) (cond : U32 → U32 → Bool) :
    P (ExecInst.branch inst offset cond) :=
  h.bind hg fun _ ↦ h.bind (h.getReg _) fun _ ↦ h.bind (h.getReg _) fun _ ↦ h.bind (hs _) fun _ ↦ h.pure _

end

end Silent

namespace Compositional

variable {P : ∀ {α : Type}, Run α → Prop} (h : Compositional P)

include h

theorem readLoop (addr len : U32) (i n : ℕ) : P (Syscall.readLoop addr len i n) := by
  induction n generalizing i with
  | zero => exact h.setReg _ _
  | succ n ih =>
    refine h.bind h.fgetc fun res ↦ ?_
    cases res with
    | none => exact h.setReg _ _
    | some c => exact h.bind (h.write _ _) fun _ ↦ ih _

theorem writeLoop (addr : U32) (i n : ℕ) : P (Syscall.writeLoop addr i n) := by
  induction n generalizing i with
  | zero => exact h.pure _
  | succ n ih => exact h.bind (h.read _ _) fun c ↦ h.bind (h.fputc _) fun _ ↦ ih _

theorem execSysCall (value : U32) : P (Syscall.execSysCall value) := by
  unfold Syscall.execSysCall
  split
  · exact h.setReg _ _
  · exact h.bind (h.getReg _) fun _ ↦ h.bind (h.getReg _) fun _ ↦ h.readLoop _ _ _ _
  · exact h.bind (h.getReg _) fun _ ↦ h.bind (h.getReg _) fun _ ↦
      h.bind (h.writeLoop _ _ _) fun _ ↦ h.setReg _ _
  · exact h.setReg _ _
  · exact h.throw _
  · exact h.bind (h.getReg _) fun _ ↦ h.bind (h.getReg _) fun _ ↦ h.bind h.gettimeofday fun _ ↦
      h.bind (h.setReg _ _) fun _ ↦ h.bind (h.write _ _) fun _ ↦ h.write _ _
  · exact h.setReg _ _
  · exact h.pure _

end Compositional

namespace Isa.ExecFunc

/-- The functions that use `GET_PC` or `SET_PC`. -/
def usesPC : ExecFunc → Bool
  | .ExecFENCE | .ExecAUIPC | .ExecJAL | .ExecJALR
  | .ExecBEQ | .ExecBNE | .ExecBLT | .ExecBGE | .ExecBLTU | .ExecBGEU => true
  | _ => false

section

variable {P : ∀ {α : Type}, Run α → Prop} (h : Silent P) {func : ExecFunc} (inst : Inst)
  (offset : U32)

include h

theorem exec_silent (hf : func.usesPC = false) (hc : func = .ExecCSRRW → P (ExecInst.execCSRRW inst))
    (he : func = .ExecECALL → P ExecInst.execECALL) : P (func.exec inst offset) := by
  cases func with
  | ExecFENCE | ExecAUIPC | ExecJAL | ExecJALR | ExecBEQ | ExecBNE | ExecBLT | ExecBGE | ExecBLTU
  | ExecBGEU => cases hf
  | ExecDummy => exact h.pure _
  | ExecECALL => exact he rfl
  | ExecLB | ExecLH | ExecLW | ExecLBU | ExecLHU =>
    dsimp only [exec]
    exact h.load _ _ _
  | ExecSB | ExecSH | ExecSW =>
    dsimp only [exec]
    exact h.store _ _
  | ExecLUI => exact h.bind (h.setReg _ _) fun _ ↦ h.pure _
  | ExecSLLI => exact h.immType _ fun _ _ _ ↦ ExecInst.shiftLeft_error
  | ExecSRLI => exact h.immType _ fun _ _ _ ↦ ExecInst.shiftRight_error
  | ExecSRAI => exact h.immType _ fun _ _ _ ↦ ExecInst.shiftRightArith_error
  | ExecADDI | ExecSLTI | ExecSLTIU | ExecXORI | ExecORI | ExecANDI =>
    dsimp only [exec]
    exact h.immType _ nofun
  | ExecSLL => exact h.regType _ fun _ _ _ ↦ ExecInst.shiftLeft_error
  | ExecSRL => exact h.regType _ fun _ _ _ ↦ ExecInst.shiftRight_error
  | ExecSRA => exact h.regType _ fun _ _ _ ↦ ExecInst.shiftRightArith_error
  | ExecCSRRW => exact hc rfl
  | ExecDIV | ExecREM =>
    refine h.regType _ fun a b e he ↦ ?_
    rw [ExecInst.signed_guarded] at he
    cases he
  | ExecDIVU | ExecREMU =>
    refine h.regType _ fun a b e he ↦ ?_
    rw [ExecInst.unsigned_guarded] at he
    cases he
  | _ =>
    dsimp only [exec]
    exact h.regType _ nofun

theorem exec_silent_pc (hg : P getPC) (hs : ∀ pc, P (setPC pc)) (hf : func.usesPC = true)
    (hflush : func = .ExecFENCE → P flush) : P (func.exec inst offset) := by
  cases func with
  | ExecFENCE => exact h.bind (hflush rfl) fun _ ↦ h.bind hg fun _ ↦ h.bind (hs _) fun _ ↦ h.pure _
  | ExecAUIPC => exact h.bind hg fun _ ↦ h.bind (h.setReg _ _) fun _ ↦ h.pure _
  | ExecJAL => exact h.bind hg fun _ ↦ h.bind (h.setReg _ _) fun _ ↦ h.bind (hs _) fun _ ↦ h.pure _
  | ExecJALR =>
    exact h.bind hg fun _ ↦ h.bind (h.setReg _ _) fun _ ↦ h.bind (h.getReg _) fun _ ↦
      h.bind (hs _) fun _ ↦ h.pure _
  | ExecBEQ | ExecBNE | ExecBLT | ExecBGE | ExecBLTU | ExecBGEU =>
    dsimp only [exec]
    exact h.branch hg hs _ _ _
  | _ => cases hf

end

section

variable {P : ∀ {α : Type}, Run α → Prop} (h : Compositional P) {func : ExecFunc} (inst : Inst)
  (offset : U32)

include h

theorem exec_compositional (hf : func.usesPC = false)
    (hc : func = .ExecCSRRW → P (ExecInst.execCSRRW inst)) : P (func.exec inst offset) :=
  exec_silent h.toSilent inst offset hf hc fun _ ↦
    h.bind (h.getReg _) fun _ ↦ h.bind (h.execSysCall _) fun _ ↦ h.pure _

theorem exec_compositional_pc (hg : P getPC) (hs : ∀ pc, P (setPC pc)) (hf : func.usesPC = true)
    (hflush : func = .ExecFENCE → P flush) : P (func.exec inst offset) :=
  exec_silent_pc h.toSilent inst offset hg hs hf hflush

end

end Isa.ExecFunc

end RiscvSim
