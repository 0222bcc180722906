import RiscvSim.JumpTemplates
import RiscvSim.ShiftTemplates
import RiscvSim.Shifts

namespace RiscvSim

open Isa Ir X86 Results Translator Native TranslateInst BitFields Decoder

/-- The commands that `translateImmType` translates, SRAI apart. -/
def operationTypes : List Cmd := [.ADDI, .XORI, .ORI, .ANDI, .SLLI, .SRLI]

def operationOf : Cmd → Id
  | .ADDI => .add
  | .XORI => .xor
  | .ORI => .or
  | .ANDI => .and
  | .SLLI => .shl
  | _ => .shr

/-- What an instruction with an immediate makes of the destination. -/
def operate (id : Id) (v w : U32) : U32 :=
  if id ∈ [Id.shl, .shr, .sar] then shift id v (w.toNat % 32) else (arith id v w).1

def operations : List Id := [.add, .xor, .or, .and, .shl, .shr]

theorem operationOf_mem (c : Cmd) : operationOf c ∈ operations := by
  unfold operationOf
  split <;> decide

/-- A shift immediate is below 32 in what `decode` returns. -/
structure Decodes (inst : Inst) : Prop where
  shamt : inst.getCmd = .SLLI ∨ inst.getCmd = .SRLI → inst.getImm.toNat < 32

theorem decodes_of_decode {w : U32} {inst : Inst} (h : decoder_.decode w = .ok inst) : Decodes inst := by
  obtain ⟨hs, hi⟩ := (decode_ok_iff w inst).mp h
  refine ⟨fun hcmd ↦ ?_⟩
  have hf : formatOf inst.cmd_ = .I ∧ rawImm inst.cmd_ = false ∧ w.extractLsb' 25 7 = 0 := by
    clear hi h
    obtain ⟨imm, rs1, rs2, rd, c, hc⟩ := inst
    rcases hcmd with hcmd | hcmd <;> cases hcmd
    · exact ⟨rfl, rfl, hs.special⟩
    · exact ⟨rfl, rfl, hs.special⟩
  have himm : inst.getImm = (fieldI w).signExtend 32 := by
    rw [hi]
    exact Rv32i.readAs_immI w hf.1 hf.2.1
  rw [himm, fieldI_shamt hf.2.2]
  exact shamt_lt_32 w

section

variable {inst : Inst} (hcmd : inst.getCmd ∈ operationTypes)

include hcmd

theorem exec_operation (hd : Decodes inst) (offset : U32) (s : State) :
    (inst.func_.exec inst offset).run s = .ok .nextInst { s with
      regs := s.regs.set inst.getRd
        (operate (operationOf inst.getCmd) (s.regs.get inst.getRs1) inst.getImm) } := by
  have hshift := hd.shamt
  obtain ⟨imm, rs1, rs2, rd, c, hc⟩ := inst
  simp only [operationTypes, Inst.getCmd, List.mem_cons, List.not_mem_nil, or_false] at hcmd
  rcases hcmd with rfl | rfl | rfl | rfl | rfl | rfl
  · exact immType_run (f := fun v w ↦ .ok (v + w)) _ rfl
  · exact immType_run (f := fun v w ↦ .ok (v ^^^ w)) _ rfl
  · exact immType_run (f := fun v w ↦ .ok (v ||| w)) _ rfl
  · exact immType_run (f := fun v w ↦ .ok (v &&& w)) _ rfl
  · have hlt : imm.toNat < 32 := hshift (.inl rfl)
    refine immType_run _ (f := ExecInst.shiftLeft) ((Rv32i.shiftLeft_eq hlt).trans ?_)
    change _ = Except.ok (shift .shl _ (imm.toNat % 32))
    rw [Nat.mod_eq_of_lt hlt]
    rfl
  · have hlt : imm.toNat < 32 := hshift (.inr rfl)
    refine immType_run _ (f := ExecInst.shiftRight) ((Rv32i.shiftRight_eq hlt).trans ?_)
    change _ = Except.ok (shift .shr _ (imm.toNat % 32))
    rw [Nat.mod_eq_of_lt hlt]
    rfl

theorem translate_operation : inst.translate = if inst.getCmd = .ADDI then translateADDI inst
    else translateImmType inst (operationOf inst.getCmd) := by
  obtain ⟨imm, rs1, rs2, rd, c, hc⟩ := inst
  simp only [operationTypes, Inst.getCmd, List.mem_cons, List.not_mem_nil, or_false] at hcmd
  rcases hcmd with rfl | rfl | rfl | rfl | rfl | rfl <;> rfl

end

namespace Emits

variable {layout : Layout} {clobber : Clobber} {a : Allocation} {tr : Translator} {inst : Inst}
  {m m₀ : Machine State} {R : Regs} {id : Id}

/-- An operation with an immediate, the flags left open. -/
theorem opImm (hid : id ∈ operations) (hm : Ready layout m) {l : Loc} (hl : l.Usable) (v : U64)
    {Q : Machine State → Prop}
    (h : ∀ f, Q ((put m l (operate id (look m l) (v.setWidth 32))).withFlags f)) :
    Emits (env layout clobber) (Translator.emit (.bin id l.op (.imm v))) tr m Q := by
  by_cases hshift : id ∈ [Id.shl, .shr, .sar]
  · have hk : m.value (env layout clobber) 8 (.imm v) = .ok (v.setWidth 8) := rfl
    obtain ⟨f, hf⟩ := exec_shift clobber hm hshift hl hk
    have hcount : (v.setWidth 8).toNat % 32 = (v.setWidth 32).toNat % 32 := by
      simp only [BitVec.toNat_setWidth]
      omega
    have hq := h f
    rw [operate, if_pos hshift, ← hcount] at hq
    refine emit ?_ hf hq
    simp only [List.mem_cons, List.not_mem_nil, or_false] at hshift
    rcases hshift with rfl | rfl | rfl <;> cases l <;> rfl
  · have harith : id ∈ [Id.add, .sub, .and, .or, .xor] := by
      simp only [operations, List.mem_cons, List.not_mem_nil, or_false] at hid hshift ⊢
      tauto
    refine arith hm harith hl (s := .imm v) (Bool.and_false _) ?_
    have hq := h (some (X86.arith id (look m l) (v.setWidth 32)).2)
    rw [operate, if_neg hshift] at hq
    exact hq

theorem setWidth_IMM (inst : Inst) : (IMM inst).setWidth 32 = inst.getImm :=
  setWidth_signExtend_self (by decide) _

theorem immType (hid : id ∈ operations) (huses : tr.Uses a) (h : a.Holds layout m₀ m R)
    (hrd : inst.getRd ≠ 0) : Emits (env layout clobber) (translateImmType inst id) tr m fun m' ↦
      a.Holds layout m₀ m' (R.set inst.getRd (operate id (R.get inst.getRs1) inst.getImm)) := by
  have hin : ∀ m₁ R₁, a.Holds layout m₀ m₁ R₁ → R₁.get inst.getRd = R.get inst.getRs1 →
      (∀ v, R₁.set inst.getRd v = R.set inst.getRd v) →
      Emits (env layout clobber) (Translator.emit (.bin id (a.loc inst.getRd).op (.imm (IMM inst)))) tr m₁
        fun m' ↦ a.Holds layout m₀ m' (R.set inst.getRd (operate id (R.get inst.getRs1) inst.getImm)) := by
    intro m₁ R₁ h₁ hv hset
    refine opImm hid h₁.ready (a.usable hrd) _ fun f ↦ ?_
    rw [h₁.look hrd, hv, setWidth_IMM, ← hset]
    exact (h₁.put hrd _).withFlags f
  rw [translateImmType, if_neg hrd]
  refine RD (RS1 ?_)
  rw [huses.of_ne hrd, huses]
  by_cases hsame : (a.loc inst.getRd).op = (a.src inst.getRs1).op
  · have hrs := ((a.op_eq_iff _ _).mp hsame).1
    rw [if_neg (not_not.mpr hsame)]
    exact hin m R h (by rw [hrs]) fun _ ↦ rfl
  · rw [if_pos hsame]
    refine .seq (moveVia h hrd fun m₁ h₁ ↦ ?_)
    rw [h.value] at h₁
    exact hin m₁ _ h₁ (Regs.get_set_self _ hrd _) fun v ↦ Regs.set_set _ _ _ v

theorem addi (huses : tr.Uses a) (h : a.Holds layout m₀ m R) :
    Emits (env layout clobber) (translateADDI inst) tr m fun m' ↦
      a.Holds layout m₀ m' (R.set inst.getRd (R.get inst.getRs1 + inst.getImm)) := by
  rw [translateADDI]
  refine RD ?_
  by_cases hrd : inst.getRd = 0
  · have hop : tr.getReg inst.getRd = .imm 0 := by rw [hrd, huses, a.src_zero]; rfl
    rw [hop, hrd, Regs.set_zero]
    split
    · exact move_imm h
    · split
      · refine RS1 ?_
        rw [huses]
        exact moveVia_imm h.ready (fun _ ↦ h) fun f ↦
          (h.scratch (g := .rax) (by decide) (by decide) _).withFlags f
      · rw [translateImmType, if_pos hrd]
        exact pure h
  · rw [huses.of_ne hrd]
    split
    · next hrs1 =>
      rw [hrs1, R.get_zero, BitVec.zero_add, ← setWidth_IMM inst]
      refine move (s := .imm (IMM inst)) h.ready (a.usable hrd) (Bool.and_false _) fun f ↦ ?_
      exact (h.put hrd _).withFlags f
    · split
      · next himm =>
        have hsum : R.get inst.getRs1 + inst.getImm = R.get inst.getRs1 := by
          rw [himm]
          exact BitVec.add_zero _
        refine RS1 ?_
        rw [huses, hsum]
        refine moveVia h hrd fun m' h' ↦ ?_
        rw [h.value] at h'
        exact h'
      · exact immType (by decide) huses h hrd

theorem lui (huses : tr.Uses a) (h : a.Holds layout m₀ m R) :
    Emits (env layout clobber) (translateLUI inst) tr m fun m' ↦
      a.Holds layout m₀ m' (R.set inst.getRd inst.getImm) := by
  rw [translateLUI]
  refine RD ?_
  by_cases hrd : inst.getRd = 0
  · have hop : tr.getReg inst.getRd = .imm 0 := by rw [hrd, huses, a.src_zero]; rfl
    rw [hop, hrd, Regs.set_zero]
    exact move_imm h
  · rw [huses.of_ne hrd]
    refine move (s := .imm (inst.getImm.setWidth 64)) h.ready (a.usable hrd) (Bool.and_false _) fun f ↦ ?_
    have hput := (h.put hrd ((inst.getImm.setWidth 64).setWidth 32)).withFlags f
    rw [setWidth_setWidth_self (by decide)] at hput
    rw [valueOf, setWidth_setWidth_self (by decide)]
    exact hput

theorem auipc (huses : tr.Uses a) (hm : Ready layout m) :
    Emits (env layout clobber) (translateAUIPC inst) tr m fun m' ↦ a.Holds layout m m'
      ((a.regs m).set inst.getRd (m.world.pc + tr.getOffset.setWidth 32 + inst.getImm)) := by
  have h := Allocation.Holds.refl (a := a) hm
  refine .seq (emit rfl (exec_mov_of_pc hm clobber) ?_)
  have h₁ := h.scratch (g := .rax) (by decide) (by decide) m.world.pc
  refine OFFSET (.seq (onTmp h₁ (by decide) (.imm (tr.getOffset + inst.getImm.setWidth 64))
    fun m₂ h₂ hv₂ ↦ RD (moveToRd huses h₂ ?_ fun m₃ h₃ ↦ h₃)))
  rw [hv₂, look_put_self _ (by decide)]
  change m.world.pc + (tr.getOffset + inst.getImm.setWidth 64).setWidth 32 = _
  rw [BitVec.setWidth_add _ _ (by decide), setWidth_setWidth_self (by decide), BitVec.add_assoc]

end Emits

/-- The commands that compute with an immediate and no second register. -/
def immediateTypes : List Cmd := operationTypes ++ [.LUI, .AUIPC]

def computed (inst : Inst) (offset : U32) (s : State) : U32 :=
  match inst.getCmd with
  | .LUI => inst.getImm
  | .AUIPC => s.pc + offset + inst.getImm
  | c => operate (operationOf c) (s.regs.get inst.getRs1) inst.getImm

theorem computed_of_operation {inst : Inst} (hcmd : inst.getCmd ∈ operationTypes) (offset : U32)
    (s : State) : computed inst offset s =
      operate (operationOf inst.getCmd) (s.regs.get inst.getRs1) inst.getImm := by
  unfold computed
  split
  · next h => exact absurd hcmd (by rw [h]; decide)
  · next h => exact absurd hcmd (by rw [h]; decide)
  · rfl

section

variable {layout : Layout} {clobber : Clobber} {a : Allocation} {tr : Translator} {inst : Inst}
  {m : Machine State} (hcmd : inst.getCmd ∈ immediateTypes)

include hcmd

theorem exec_immediate (hd : Decodes inst) (offset : U32) (s : State) :
    (inst.func_.exec inst offset).run s =
      .ok .nextInst { s with regs := s.regs.set inst.getRd (computed inst offset s) } := by
  rcases List.mem_append.mp hcmd with hop | hlast
  · rw [computed_of_operation hop]
    exact exec_operation hop hd offset s
  · obtain ⟨imm, rs1, rs2, rd, c, hc⟩ := inst
    simp only [Inst.getCmd, List.mem_cons, List.not_mem_nil, or_false] at hlast
    rcases hlast with rfl | rfl <;> rfl

theorem immediate_template (huses : tr.Uses a) (hm : Ready layout m) :
    Emits (env layout clobber) inst.translate tr m fun m' ↦ a.Holds layout m m'
      ((a.regs m).set inst.getRd (computed inst (tr.getOffset.setWidth 32) (a.guest m))) := by
  have hrefl := Allocation.Holds.refl (a := a) hm
  rcases List.mem_append.mp hcmd with hop | hlast
  · rw [translate_operation hop, computed_of_operation hop]
    by_cases haddi : inst.getCmd = .ADDI
    · rw [if_pos haddi, haddi]
      exact .addi huses hrefl
    · rw [if_neg haddi]
      by_cases hrd : inst.getRd = 0
      · rw [translateImmType, if_pos hrd, hrd, Regs.set_zero]
        exact .pure hrefl
      · exact .immType (operationOf_mem _) huses hrefl hrd
  · obtain ⟨imm, rs1, rs2, rd, c, hc⟩ := inst
    simp only [Inst.getCmd, List.mem_cons, List.not_mem_nil, or_false] at hlast
    rcases hlast with rfl | rfl
    · exact .lui huses hrefl
    · exact .auipc huses hm

end

/-- The templates of ADDI, XORI, ORI, ANDI, SLLI, SRLI, LUI and AUIPC are right for every instruction
that `decode` returns, wherever the registers are kept. -/
theorem immediate_agrees {layout : Layout} {clobber : Clobber} {a : Allocation} {tr : Translator}
    {w : U32} {inst : Inst} {m : Machine State} (hdec : decoder_.decode w = .ok inst)
    (hcmd : inst.getCmd ∈ immediateTypes) (huses : tr.Uses a) (hm : Ready layout m) :
    Agrees layout clobber a tr inst (tr.getOffset.setWidth 32) m :=
  (agrees_iff (immediate_template hcmd huses hm)
    (exec_immediate hcmd (decodes_of_decode hdec) _ _)).mpr (.inr rfl)

theorem selects_auipc : Selects 0x12345097#32 ⟨.AUIPC, by decide⟩ where
  sz := by decide
  opcode := by decide
  funct3 h := absurd rfl h
  funct7 h := by cases h
  special := trivial

/-- `auipc x1, 0x12345`, third in a trace at 0x1000 and with 5 in `x1` -/
theorem immediate_agrees_auipc :
    let tr := { Translator.init [] false with cur_inst_ := 2 }
    let s := { onePage (fun _ ↦ 0) (.new 1) with regs := Regs.fill0.set 1 5, pc := 0x1000 }
    Agrees ⟨0, 0⟩ (fun _ _ _ ↦ 0) .slots tr ⟨0x12345000#32, 0, 0, 1, .AUIPC, by decide⟩ 8
      (start ⟨0, 0⟩ (fun _ ↦ 0) s) := by
  intro tr s
  have huses : tr.Uses .slots := uses_slots [] false
  exact immediate_agrees (w := 0x12345097#32) ((decode_ok_iff _ _).mpr ⟨selects_auipc, by decide⟩)
    (by decide) huses rfl

end RiscvSim
