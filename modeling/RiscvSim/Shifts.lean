import RiscvSim.Rv32iStep

namespace RiscvSim

open Isa Ir Results Decoder BitFields Rv32i

def shamt (w : U32) : BitVec 5 := w.extractLsb' 20 5

def shiftBy (cmd : Cmd) (a : U32) (n : ℕ) : U32 :=
  match cmd with
  | .SLLI | .SLL => a <<< n
  | .SRLI | .SRL => a >>> n
  | _ => a.sshiftRight n

def IsImmShift (inst : Inst) : Prop :=
  inst.getCmd = .SLLI ∨ inst.getCmd = .SRLI ∨ inst.getCmd = .SRAI

def IsRegShift (inst : Inst) : Prop :=
  inst.getCmd = .SLL ∨ inst.getCmd = .SRL ∨ inst.getCmd = .SRA

/-- The immediate is the field of the word, and the function shifts by it; an undefined shift
would stop the run. -/
structure ShiftsByField (w : U32) (inst : Inst) (s : State) (offset : U32) : Prop where
  imm : inst.getImm = (shamt w).setWidth 32
  run : Writes inst s (inst.func_.exec inst offset)
    (shiftBy inst.getCmd (s.regs.get inst.getRs1) (shamt w).toNat)

/-- Under a funct7 without sign the immediate is its two fields side by side. -/
theorem toNat_signExtend_fieldI {w : U32} (h : (w.extractLsb' 25 7).msb = false) :
    ((fieldI w).signExtend 32 : U32).toNat = (w.extractLsb' 25 7).toNat * 32 + (shamt w).toNat := by
  have hf : fieldI w = w.extractLsb' 25 7 ++ shamt w :=
    (@BitVec.extractLsb'_append_extractLsb'_eq_extractLsb' 32 25 20 5 7 w (by decide)).symm
  have hm : (fieldI w).msb = false := by
    rw [hf, BitVec.msb_append, if_neg (by decide)]
    exact h
  rw [BitVec.signExtend_eq_setWidth_of_msb_false hm, setWidth_toNat (by decide), hf, toNat_append]
  rfl

theorem getLsbD_funct7 (w : U32) : w.getLsbD 30 = (w.extractLsb' 25 7).getLsbD 5 := by
  rw [BitVec.getLsbD_extractLsb']
  rfl

theorem shamt_lt_32 (w : U32) : ((shamt w).setWidth 32 : U32).toNat < 32 := by
  rw [setWidth_toNat (by decide)]
  exact (shamt w).isLt

theorem fieldI_shamt {w : U32} (h : w.extractLsb' 25 7 = 0) :
    ((fieldI w).signExtend 32 : U32) = (shamt w).setWidth 32 := by
  apply BitVec.eq_of_toNat_eq
  rw [toNat_signExtend_fieldI (by rw [h]; rfl), h, setWidth_toNat (by decide)]
  simp

theorem fieldI_ne_shamt {w : U32} (h : w.extractLsb' 25 7 = 0x20) :
    ((fieldI w).signExtend 32 : U32) ≠ (shamt w).setWidth 32 := by
  intro he
  have hlt := shamt_lt_32 w
  rw [← he, toNat_signExtend_fieldI (by rw [h]; rfl), h] at hlt
  change 0x20 * 32 + _ < 32 at hlt
  omega

theorem immType_shifts {w : U32} {inst : Inst} (hi : inst.getImm = (shamt w).setWidth 32)
    {f : U32 → U32 → Except Stop U32} {g : U32 → ℕ → U32}
    (hf : ∀ {a n : U32}, n.toNat < 32 → f a n = .ok (g a n.toNat)) (s : State) :
    Writes inst s (ExecInst.immType inst f) (g (s.regs.get inst.getRs1) (shamt w).toNat) := by
  apply immType_run
  rw [hi, hf (shamt_lt_32 w), setWidth_toNat (by decide)]

theorem regType_shifts (inst : Inst) {f : U32 → U32 → Except Stop U32} {g : U32 → ℕ → U32}
    (hf : ∀ {a n : U32}, n.toNat < 32 → f a n = .ok (g a n.toNat)) (s : State) :
    Writes inst s (ExecInst.regType inst fun a b ↦ f a (b &&& 0b11111))
      (g (s.regs.get inst.getRs1) ((s.regs.get inst.getRs2).toNat % 32)) := by
  apply regType_run
  have hlt : (s.regs.get inst.getRs2 &&& 0b11111).toNat < 32 := by
    rw [toNat_and_31]
    exact Nat.mod_lt _ (by decide)
  rw [hf hlt, toNat_and_31]

/-- A decoded immediate shift shifts by the field of its word exactly when bit 30 is clear:
SLLI and SRLI always do, SRAI never. The shifts by a register are always defined. -/
theorem shifts_defined_iff (w : U32) (inst : Inst) (s : State) (offset : U32) :
    (decoder_.decode w = .ok inst → IsImmShift inst →
      (ShiftsByField w inst s offset ↔ w.getLsbD 30 = false)) ∧
    (IsRegShift inst → Writes inst s (inst.func_.exec inst offset)
      (shiftBy inst.getCmd (s.regs.get inst.getRs1) ((s.regs.get inst.getRs2).toNat % 32))) := by
  constructor
  · intro hd hc
    obtain ⟨hs, hi⟩ := (decode_ok_iff w inst).mp hd
    have himm : ∀ {c}, inst.cmd_ = c → formatOf c = .I → rawImm c = false →
        inst.getImm = (fieldI w).signExtend 32 := by
      intro c hcmd hf hr
      rw [hi, hcmd]
      exact readAs_immI w hf hr
    clear hi hd
    obtain ⟨imm, rs1, rs2, rd, c, hne⟩ := inst
    rw [getLsbD_funct7]
    rcases hc with hc | hc | hc <;> cases hc
    · have h7 : w.extractLsb' 25 7 = 0 := hs.special
      have hfield := (himm rfl rfl rfl).trans (fieldI_shamt h7)
      rw [h7]
      exact iff_of_true ⟨hfield, immType_shifts (g := fun a n ↦ a <<< n) hfield shiftLeft_eq s⟩ rfl
    · have h7 : w.extractLsb' 25 7 = 0 := hs.special
      have hfield := (himm rfl rfl rfl).trans (fieldI_shamt h7)
      rw [h7]
      exact iff_of_true ⟨hfield, immType_shifts (g := fun a n ↦ a >>> n) hfield shiftRight_eq s⟩ rfl
    · have h7 : w.extractLsb' 25 7 = 0x20 := hs.special
      have hfield : _ ≠ _ := (himm rfl rfl rfl).trans_ne (fieldI_ne_shamt h7)
      rw [h7]
      exact iff_of_false (fun h ↦ hfield h.imm) (by decide)
  · intro hc
    obtain ⟨imm, rs1, rs2, rd, c, hne⟩ := inst
    rcases hc with hc | hc | hc <;> cases hc
    · exact regType_shifts _ (g := fun a n ↦ a <<< n) shiftLeft_eq s
    · exact regType_shifts _ (g := fun a n ↦ a >>> n) shiftRight_eq s
    · exact regType_shifts _ (g := BitVec.sshiftRight) shiftRightArith_eq s

theorem selects_slli : Selects 0x00311093#32 ⟨.SLLI, by decide⟩ where
  sz := by decide
  opcode := by decide
  funct3 _ _ := by decide
  funct7 h := by cases h
  special := rfl

/-- `slli x1, x2, 3`, and `sra x1, x2, x3` with 35 in `x3` -/
theorem shifts_defined_iff_slli :
    let s := { onePage (fun _ ↦ 0) (.new 1) with regs := (Regs.fill0.set 2 0x80000000).set 3 35 }
    ShiftsByField 0x00311093#32 ⟨3, 2, 0, 1, .SLLI, by decide⟩ s 0 ∧
      Writes (genR ⟨.SRA, by decide⟩ 1 2 3) s
        ((genR ⟨.SRA, by decide⟩ 1 2 3).func_.exec (genR ⟨.SRA, by decide⟩ 1 2 3) 0) 0xf0000000 := by
  intro s
  have hdec : decoder_.decode 0x00311093#32 = .ok ⟨3, 2, 0, 1, .SLLI, by decide⟩ :=
    (decode_ok_iff _ _).mpr ⟨selects_slli, by decide⟩
  refine ⟨((shifts_defined_iff _ _ s 0).1 hdec (.inl rfl)).mpr (by decide), ?_⟩
  have hsra := (shifts_defined_iff 0 (genR ⟨.SRA, by decide⟩ 1 2 3) s 0).2 (.inr (.inr rfl))
  rw [show shiftBy _ _ _ = 0xf0000000#32 by decide] at hsra
  exact hsra

theorem selects_srai : Selects 0x40115093#32 .SRAI where
  sz := by decide
  opcode := by decide
  funct3 _ _ := by decide
  funct7 h := by cases h
  special := rfl

/-- `srai x1, x2, 1` has the immediate 1025. -/
theorem srai_undefined : ¬ ∀ w inst, decoder_.decode w = .ok inst → IsImmShift inst →
    ∀ s offset, ShiftsByField w inst s offset := by
  intro h
  have hd := (decode_ok_iff 0x40115093#32 ⟨0x401, 2, 0, 1, .SRAI⟩).mpr ⟨selects_srai, by decide⟩
  have hs := h _ _ hd (.inr (.inr rfl)) (onePage (fun _ ↦ 0) (.new 1)) 0
  exact absurd hs.imm (by decide)

end RiscvSim
