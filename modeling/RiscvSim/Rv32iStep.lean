import RiscvSim.Bare
import RiscvSim.EncodingRoundTrip
import RiscvSim.Rv32i

namespace RiscvSim

open Isa Ir State Results Decoder BitFields

namespace Rv32i

/-- The commands whose interpreter functions follow the manual; JALR reads its base register
after it has written the link register. -/
def Covered (inst : Inst) : Prop :=
  match inst.getCmd with
  | .LUI | .AUIPC | .JAL | .BEQ | .BNE | .BLT | .BGE | .BLTU | .BGEU
  | .LB | .LH | .LW | .LBU | .LHU | .SB | .SH | .SW
  | .ADDI | .SLTI | .SLTIU | .XORI | .ORI | .ANDI | .SLLI | .SRLI
  | .ADD | .SUB | .SLL | .SLT | .SLTU | .XOR | .SRL | .SRA | .OR | .AND => True
  | .JALR => inst.getRd = 0 ∨ inst.getRd ≠ inst.getRs1
  | _ => False

/-- The instruction of the manual behind a covered command. -/
def instrOf (c : Cmd) (w : U32) : Instr :=
  let branch (c : Cond) := Instr.branch c (rs1 w) (rs2 w) (fieldB w)
  let load (v : Width) (signed : Bool) := Instr.load v signed (rd w) (rs1 w) (fieldI w)
  let store (v : Width) := Instr.store v (rs1 w) (rs2 w) (fieldS w)
  let opImm (op : AluOp) := Instr.opImm op (rd w) (rs1 w) (fieldI w)
  let op (op : AluOp) := Instr.op op (rd w) (rs1 w) (rs2 w)
  match c with
  | .LUI => .lui (rd w) (fieldU w)
  | .AUIPC => .auipc (rd w) (fieldU w)
  | .JAL => .jal (rd w) (fieldJ w)
  | .JALR => .jalr (rd w) (rs1 w) (fieldI w)
  | .BEQ => branch .eq
  | .BNE => branch .ne
  | .BLT => branch .lt
  | .BGE => branch .ge
  | .BLTU => branch .ltu
  | .BGEU => branch .geu
  | .LB => load .byte true
  | .LH => load .half true
  | .LW => load .word true
  | .LBU => load .byte false
  | .LHU => load .half false
  | .SB => store .byte
  | .SH => store .half
  | .SW => store .word
  | .ADDI => opImm .add
  | .SLTI => opImm .slt
  | .SLTIU => opImm .sltu
  | .XORI => opImm .xor
  | .ORI => opImm .or
  | .ANDI => opImm .and
  | .SLLI => opImm .sll
  | .SRLI => opImm .srl
  | .ADD => op .add
  | .SUB => op .sub
  | .SLL => op .sll
  | .SLT => op .slt
  | .SLTU => op .sltu
  | .XOR => op .xor
  | .SRL => op .srl
  | .SRA => op .sra
  | .OR => op .or
  | _ => op .and

theorem major_opcode {w : U32} {c : Command} (op : BitVec 5) {k : ℕ} (h : Selects w c)
    (ho : opcodeOf c = op) (hk : (op ++ 3#2).toNat = k) : (w.extractLsb' 0 7).toNat = k := by
  have h7 := @BitVec.extractLsb'_append_extractLsb'_eq_extractLsb' 32 2 0 2 5 w (by decide)
  rw [h.opcode, ho, show w.extractLsb' 0 2 = 3#2 from h.sz] at h7
  rw [← hk, h7]

/-- The simulator and the manual read a covered word as the same instruction. -/
theorem decode_of_selects {w : U32} {inst : Inst} (h : Selects w inst.cmd_) (hc : Covered inst) :
    decode w = some (instrOf inst.getCmd w) := by
  obtain ⟨imm, rs1, rs2, rd, c, hne⟩ := inst
  have hf3 := h.funct3
  have hf7 := h.funct7
  cases c with
  | LUI =>
    rw [decode, major_opcode 0b01101#5 h rfl rfl]
    rfl
  | AUIPC =>
    rw [decode, major_opcode 0b00101#5 h rfl rfl]
    rfl
  | JAL =>
    rw [decode, major_opcode 0b11011#5 h rfl rfl]
    rfl
  | JALR =>
    rw [decode, major_opcode 0b11001#5 h rfl rfl, hf3 nofun nofun]
    rfl
  | BEQ | BNE | BLT | BGE | BLTU | BGEU =>
    rw [decode, major_opcode 0b11000#5 h rfl rfl, hf3 nofun nofun]
    rfl
  | LB | LH | LW | LBU | LHU =>
    rw [decode, major_opcode 0b00000#5 h rfl rfl, hf3 nofun nofun]
    rfl
  | SB | SH | SW =>
    rw [decode, major_opcode 0b01000#5 h rfl rfl, hf3 nofun nofun]
    rfl
  | ADDI | SLTI | SLTIU | XORI | ORI | ANDI =>
    rw [decode, major_opcode 0b00100#5 h rfl rfl, hf3 nofun nofun]
    rfl
  | SLLI | SRLI =>
    rw [decode, major_opcode 0b00100#5 h rfl rfl, hf3 nofun nofun,
      show w.extractLsb' 25 7 = 0 from h.special]
    rfl
  | ADD | SUB | SLL | SLT | SLTU | XOR | SRL | SRA | OR | AND =>
    rw [decode, major_opcode 0b01100#5 h rfl rfl, hf3 nofun nofun, hf7 rfl]
    rfl
  | _ => exact hc.elim

def regFunc : AluOp → U32 → U32 → Except Stop U32
  | .add => fun a b ↦ .ok (a + b)
  | .sub => fun a b ↦ .ok (a - b)
  | .sll => fun a b ↦ ExecInst.shiftLeft a (b &&& 0b11111)
  | .slt => fun a b ↦ .ok (if a.slt b then 1 else 0)
  | .sltu => fun a b ↦ .ok (if a.ult b then 1 else 0)
  | .xor => fun a b ↦ .ok (a ^^^ b)
  | .srl => fun a b ↦ ExecInst.shiftRight a (b &&& 0b11111)
  | .sra => fun a b ↦ ExecInst.shiftRightArith a (b &&& 0b11111)
  | .or => fun a b ↦ .ok (a ||| b)
  | .and => fun a b ↦ .ok (a &&& b)

theorem shiftLeft_eq {a n : U32} (h : n.toNat < 32) :
    ExecInst.shiftLeft a n = .ok (a <<< n.toNat) := if_pos h

theorem shiftRight_eq {a n : U32} (h : n.toNat < 32) :
    ExecInst.shiftRight a n = .ok (a >>> n.toNat) := if_pos h

theorem shiftRightArith_eq {a n : U32} (h : n.toNat < 32) :
    ExecInst.shiftRightArith a n = .ok (a.sshiftRight n.toNat) := by
  have hneg : a.toInt < 0 ↔ a.msb = true := by rw [BitVec.msb_eq_toInt, decide_eq_true_iff]
  rw [ExecInst.shiftRightArith, shiftRight_eq h, shiftRight_eq h]
  split
  · next hmask =>
    rw [← ushiftRight_or_mask a (hneg.mp hmask.1)]
    rfl
  · next hmask =>
    change Except.ok (a >>> n.toNat ||| 0#32) = _
    rw [BitVec.or_zero]
    cases hm : a.msb with
    | false => rw [BitVec.sshiftRight_eq_of_msb_false hm]
    | true =>
      have h0 : n.toNat = 0 := by
        by_contra hn
        exact hmask ⟨hneg.mpr hm, Nat.pos_of_ne_zero hn⟩
      rw [h0, BitVec.ushiftRight_zero, BitVec.sshiftRight_zero]

theorem toNat_and_31 (b : U32) : (b &&& 0b11111).toNat = b.toNat % 32 :=
  toNat_and_mask b (m := 0b11111#32) (k := 5) rfl

theorem regFunc_eq (op : AluOp) (a b : U32) : regFunc op a b = .ok (alu op a b) := by
  have h31 : (b &&& 0b11111).toNat < 32 := by rw [toNat_and_31]; exact Nat.mod_lt _ (by decide)
  cases op with
  | sll => exact (shiftLeft_eq h31).trans (by rw [toNat_and_31]; rfl)
  | srl => exact (shiftRight_eq h31).trans (by rw [toNat_and_31]; rfl)
  | sra => exact (shiftRightArith_eq h31).trans (by rw [toNat_and_31]; rfl)
  | slt => simp only [regFunc, alu, BitVec.slt_iff_toInt_lt]
  | sltu => simp only [regFunc, alu, BitVec.ult_iff_lt, BitVec.lt_def]
  | _ => rfl

def branchFunc : Cond → U32 → U32 → Bool
  | .eq => fun a b ↦ a == b
  | .ne => fun a b ↦ a != b
  | .lt => fun a b ↦ a.slt b
  | .ge => fun a b ↦ b.sle a
  | .ltu => fun a b ↦ a.ult b
  | .geu => fun a b ↦ b.ule a

theorem branchFunc_eq (c : Cond) (a b : U32) : branchFunc c a b = true ↔ c.holds a b := by
  cases c with
  | eq => exact beq_iff_eq
  | ne => exact bne_iff_ne
  | lt => exact BitVec.slt_iff_toInt_lt
  | ge => exact BitVec.sle_iff_toInt_le
  | ltu => simp only [branchFunc, Cond.holds, BitVec.ult_iff_lt, BitVec.lt_def]
  | geu => simp only [branchFunc, Cond.holds, BitVec.ule_iff_le, BitVec.le_def]

def immFunc : AluOp → U32 → U32 → Except Stop U32
  | .sll => ExecInst.shiftLeft
  | .srl => ExecInst.shiftRight
  | op => regFunc op

theorem immFunc_eq {op : AluOp} {a b : U32} (h : op = .sll ∨ op = .srl → b.toNat < 32) :
    immFunc op a b = .ok (alu op a b) := by
  have hreg := regFunc_eq op a b
  cases op with
  | sll =>
    have hb := h (.inl rfl)
    exact (shiftLeft_eq hb).trans (by rw [alu, Nat.mod_eq_of_lt hb])
  | srl =>
    have hb := h (.inr rfl)
    exact (shiftRight_eq hb).trans (by rw [alu, Nat.mod_eq_of_lt hb])
  | _ => exact hreg

end Rv32i

namespace State

open Rv32i (Machine)

/-- The part of the state the manual speaks of. -/
def machine (s : State) : Machine where
  regs := s.regs
  pc := s.pc
  mem := s.mmu.pmem_

def withMachine (s : State) (m : Machine) : State :=
  { s with regs := m.regs, pc := m.pc, mmu := { s.mmu with pmem_ := m.mem } }

@[simp] theorem machine_withMachine (s : State) (m : Machine) : (s.withMachine m).machine = m := rfl

@[simp] theorem withMachine_withMachine (s : State) (m m' : Machine) :
    (s.withMachine m).withMachine m' = s.withMachine m' := rfl

@[simp] theorem withMachine_virt (s : State) (m : Machine) :
    (s.withMachine m).mmu.isVirtualAddressing = s.mmu.isVirtualAddressing := rfl

@[simp] theorem withMachine_size (s : State) (m : Machine) :
    (s.withMachine m).mmu.pmem_size_ = s.mmu.pmem_size_ := rfl

end State

/-- The function writes `val` to `rd` and goes on to the next instruction. -/
def Writes (inst : Inst) (s : State) (x : Run Flow) (val : U32) : Prop :=
  x.run s = .ok .nextInst { s with regs := s.regs.set inst.getRd val }

section

variable {s : State} (inst : Inst)

theorem regType_run {f : U32 → U32 → Except Stop U32} {v : U32}
    (h : f (s.regs.get inst.getRs1) (s.regs.get inst.getRs2) = .ok v) :
    (ExecInst.regType inst f).run s =
      .ok .nextInst { s with regs := s.regs.set inst.getRd v } := by
  have hf : (lift (f (s.regs.get inst.getRs1) (s.regs.get inst.getRs2)) : Run U32).run s = .ok v s := by
    rw [h, run_lift_ok]
  change (lift (f (s.regs.get inst.getRs1) (s.regs.get inst.getRs2)) >>= _).run s = _
  rw [run_bind_of_ok hf]
  rfl

theorem immType_run {f : U32 → U32 → Except Stop U32} {v : U32}
    (h : f (s.regs.get inst.getRs1) inst.getImm = .ok v) :
    (ExecInst.immType inst f).run s =
      .ok .nextInst { s with regs := s.regs.set inst.getRd v } := by
  have hf : (lift (f (s.regs.get inst.getRs1) inst.getImm) : Run U32).run s = .ok v s := by
    rw [h, run_lift_ok]
  change (lift (f (s.regs.get inst.getRs1) inst.getImm) >>= _).run s = _
  rw [run_bind_of_ok hf]
  rfl

theorem branch_run (offset : U32) (taken : U32 → U32 → Bool) :
    (ExecInst.branch inst offset taken).run s = .ok .endTrace (s.withPC
      (if taken (s.regs.get inst.getRs1) (s.regs.get inst.getRs2)
        then s.pc + offset + inst.getImm * 2 else s.pc + offset + 4)) := rfl

end

namespace Rv32i

open SingleStep (finish)

variable {s : State} (inst : Inst)

theorem finish_op (op : AluOp) : finish ((ExecInst.regType inst (regFunc op)).run s) =
    .ok () (s.withMachine (exec s.machine (.op op inst.getRd inst.getRs1 inst.getRs2))) := by
  rw [regType_run inst (regFunc_eq op _ _)]
  rfl

theorem finish_opImm (op : AluOp) {imm : BitVec 12} (hi : inst.getImm = imm.signExtend 32)
    (h : op = .sll ∨ op = .srl → (imm.signExtend 32 : U32).toNat < 32) :
    finish ((ExecInst.immType inst (immFunc op)).run s) =
      .ok () (s.withMachine (exec s.machine (.opImm op inst.getRd inst.getRs1 imm))) := by
  rw [immType_run inst (by rw [hi]; exact immFunc_eq h)]
  rfl

theorem finish_load (hv : s.mmu.isVirtualAddressing = false) {v : Width} {signed : Bool}
    {imm : BitVec 12} (hi : inst.getImm = imm.signExtend 32) {extend : BitVec (8 * v.bytes) → U32}
    (he : extend = if signed then (·.signExtend 32) else (·.setWidth 32))
    (h : (s.regs.get inst.getRs1 + imm.signExtend 32).toNat + v.bytes < s.mmu.pmem_size_) :
    finish ((ExecInst.load inst v.bytes extend).run s) =
      .ok () (s.withMachine (exec s.machine (.load v signed inst.getRd inst.getRs1 imm))) := by
  rw [load_run inst hv extend (by rwa [hi]), he, hi]
  cases signed <;> rfl

theorem finish_store (hv : s.mmu.isVirtualAddressing = false) {v : Width} {imm : BitVec 12}
    (hi : inst.getImm = imm.signExtend 32)
    (h : (s.regs.get inst.getRs1 + imm.signExtend 32).toNat + v.bytes < s.mmu.pmem_size_) :
    finish ((ExecInst.store inst v.bytes).run s) =
      .ok () (s.withMachine (exec s.machine (.store v inst.getRs1 inst.getRs2 imm))) := by
  rw [store_run inst hv (by rwa [hi]), hi]
  rfl

theorem finish_branch {c : Cond} {offset : BitVec 12} (hi : inst.getImm = offset.signExtend 32) :
    finish ((ExecInst.branch inst 0 (branchFunc c)).run s) =
      .ok () (s.withMachine (exec s.machine (.branch c inst.getRs1 inst.getRs2 offset))) := by
  have hexec : exec s.machine (.branch c inst.getRs1 inst.getRs2 offset) =
      if c.holds (s.regs.get inst.getRs1) (s.regs.get inst.getRs2)
        then s.machine.goto (s.pc + bytes offset) else s.machine.next := rfl
  have hpc : s.pc + 0 = s.pc := BitVec.add_zero _
  rw [branch_run, hi, hpc, ← signExtend_append_zero, hexec]
  by_cases hc : c.holds (s.regs.get inst.getRs1) (s.regs.get inst.getRs2)
  · rw [if_pos ((branchFunc_eq c _ _).mpr hc), if_pos hc]
    rfl
  · rw [if_neg (fun h ↦ hc ((branchFunc_eq c _ _).mp h)), if_neg hc]
    rfl

theorem finish_lui {imm : BitVec 20} (hi : inst.getImm = imm ++ 0#12) :
    finish ((ExecInst.execLUI inst).run s) =
      .ok () (s.withMachine (exec s.machine (.lui inst.getRd imm))) := by
  change finish (.ok .nextInst { s with regs := s.regs.set inst.getRd inst.getImm }) = _
  rw [hi]
  rfl

theorem finish_auipc {imm : BitVec 20} (hi : inst.getImm = imm ++ 0#12) :
    finish ((ExecInst.execAUIPC inst 0).run s) =
      .ok () (s.withMachine (exec s.machine (.auipc inst.getRd imm))) := by
  have hpc : s.pc + 0 = s.pc := BitVec.add_zero _
  change finish (.ok .nextInst { s with
    regs := s.regs.set inst.getRd (s.pc + 0 + inst.getImm) }) = _
  rw [hi, hpc]
  rfl

theorem finish_jal {offset : BitVec 20} (hi : inst.getImm = offset.signExtend 32) :
    finish ((ExecInst.execJAL inst 0).run s) =
      .ok () (s.withMachine (exec s.machine (.jal inst.getRd offset))) := by
  have hpc : s.pc + 0 = s.pc := BitVec.add_zero _
  change finish (.ok .endTrace { s with
    regs := s.regs.set inst.getRd (s.pc + 0 + 4), pc := s.pc + 0 + inst.getImm * 2 }) = _
  rw [hi, hpc, ← signExtend_append_zero]
  rfl

theorem finish_jalr {imm : BitVec 12} (hi : inst.getImm = imm.signExtend 32)
    (hrd : inst.getRd = 0 ∨ inst.getRd ≠ inst.getRs1) :
    finish ((ExecInst.execJALR inst 0).run s) =
      .ok () (s.withMachine (exec s.machine (.jalr inst.getRd inst.getRs1 imm))) := by
  have hpc : s.pc + 0 = s.pc := BitVec.add_zero _
  have hr : (s.regs.set inst.getRd (s.pc + 4)).get inst.getRs1 = s.regs.get inst.getRs1 := by
    rcases hrd with h0 | hne
    · rw [h0, Regs.set_zero]
    · exact Regs.get_set_of_ne _ (Ne.symm hne) _
  change finish (.ok .endTrace { s with
    regs := s.regs.set inst.getRd (s.pc + 0 + 4)
    pc := ((s.regs.set inst.getRd (s.pc + 0 + 4)).get inst.getRs1 + inst.getImm) &&& ~~~1#32 }) = _
  rw [hpc, hr, hi]
  rfl

theorem immU_eq (w : U32) : immU (UFormat.ofWord w) = fieldU w ++ 0#12 :=
  (append_zero (v := 32) (n := 12) (by decide) (fieldU w)).symm.trans (BitVec.setWidth_eq _)

section

variable {c : Command} (w : U32)

theorem readAs_immI (hf : formatOf c = .I) (hr : rawImm c = false) :
    (readAs (formatOf c) c w).getImm = (fieldI w).signExtend 32 := by
  rw [hf]
  exact immOfI_signed hr w

theorem readAs_immS (hf : formatOf c = .S) :
    (readAs (formatOf c) c w).getImm = (fieldS w).signExtend 32 := by
  rw [hf]
  exact immS_eq w

theorem readAs_immB (hf : formatOf c = .B) :
    (readAs (formatOf c) c w).getImm = (fieldB w).signExtend 32 := by
  rw [hf]
  exact immB_eq w

theorem readAs_immU (hf : formatOf c = .U) : (readAs (formatOf c) c w).getImm = fieldU w ++ 0#12 := by
  rw [hf]
  exact immU_eq w

theorem readAs_immJ (hf : formatOf c = .J) :
    (readAs (formatOf c) c w).getImm = (fieldJ w).signExtend 32 := by
  rw [hf]
  exact immJ_eq w

end

theorem shamt_lt {w : U32} (h : w.extractLsb' 25 7 = 0) :
    ((fieldI w).signExtend 32 : U32).toNat < 32 := by
  have h7 := @BitVec.extractLsb'_append_extractLsb'_eq_extractLsb' 32 25 20 5 7 w (by decide)
  rw [h] at h7
  have hf : fieldI w = 0#7 ++ w.extractLsb' 20 5 := h7.symm
  have hlt := (w.extractLsb' 20 5).isLt
  have ht : (fieldI w).toNat = (w.extractLsb' 20 5).toNat := by
    rw [hf, toNat_append, BitVec.toNat_ofNat]
    omega
  have hm : (fieldI w).msb = false := by rw [BitVec.msb_eq_decide, ht]; simp; omega
  rw [BitVec.signExtend_eq_setWidth_of_msb_false hm, setWidth_toNat (by decide), ht]
  exact hlt

/-- A covered command does what the manual says, wherever its access is in range. -/
theorem finish_covered {w : U32} {c : Command} (h : Selects w c)
    (hc : Covered (readAs (formatOf c) c w)) (hv : s.mmu.isVirtualAddressing = false)
    (ha : ∀ a n wr, access s.machine (instrOf c.val w) = some (a, n, wr) →
      a.toNat + n < s.mmu.pmem_size_) :
    finish (((getCmdDesc c).exec_func.exec (readAs (formatOf c) c w) 0).run s) =
      .ok () (s.withMachine (exec s.machine (instrOf c.val w))) := by
  obtain ⟨c, hne⟩ := c
  cases c with
  | ADD => exact finish_op _ .add
  | SUB => exact finish_op _ .sub
  | SLL => exact finish_op _ .sll
  | SLT => exact finish_op _ .slt
  | SLTU => exact finish_op _ .sltu
  | XOR => exact finish_op _ .xor
  | SRL => exact finish_op _ .srl
  | SRA => exact finish_op _ .sra
  | OR => exact finish_op _ .or
  | AND => exact finish_op _ .and
  | ADDI => exact finish_opImm _ .add (readAs_immI w rfl rfl) (by simp)
  | SLTI => exact finish_opImm _ .slt (readAs_immI w rfl rfl) (by simp)
  | SLTIU => exact finish_opImm _ .sltu (readAs_immI w rfl rfl) (by simp)
  | XORI => exact finish_opImm _ .xor (readAs_immI w rfl rfl) (by simp)
  | ORI => exact finish_opImm _ .or (readAs_immI w rfl rfl) (by simp)
  | ANDI => exact finish_opImm _ .and (readAs_immI w rfl rfl) (by simp)
  | SLLI => exact finish_opImm _ .sll (readAs_immI w rfl rfl) fun _ ↦ shamt_lt h.special
  | SRLI => exact finish_opImm _ .srl (readAs_immI w rfl rfl) fun _ ↦ shamt_lt h.special
  | LB => exact finish_load (v := .byte) _ hv (readAs_immI w rfl rfl) rfl (ha _ _ _ rfl)
  | LH => exact finish_load (v := .half) _ hv (readAs_immI w rfl rfl) rfl (ha _ _ _ rfl)
  | LW => exact finish_load (v := .word) _ hv (readAs_immI w rfl rfl) rfl (ha _ _ _ rfl)
  | LBU => exact finish_load (v := .byte) _ hv (readAs_immI w rfl rfl) rfl (ha _ _ _ rfl)
  | LHU => exact finish_load (v := .half) _ hv (readAs_immI w rfl rfl) rfl (ha _ _ _ rfl)
  | SB => exact finish_store (v := .byte) _ hv (readAs_immS w rfl) (ha _ _ _ rfl)
  | SH => exact finish_store (v := .half) _ hv (readAs_immS w rfl) (ha _ _ _ rfl)
  | SW => exact finish_store (v := .word) _ hv (readAs_immS w rfl) (ha _ _ _ rfl)
  | BEQ => exact finish_branch (c := .eq) _ (readAs_immB w rfl)
  | BNE => exact finish_branch (c := .ne) _ (readAs_immB w rfl)
  | BLT => exact finish_branch (c := .lt) _ (readAs_immB w rfl)
  | BGE => exact finish_branch (c := .ge) _ (readAs_immB w rfl)
  | BLTU => exact finish_branch (c := .ltu) _ (readAs_immB w rfl)
  | BGEU => exact finish_branch (c := .geu) _ (readAs_immB w rfl)
  | LUI => exact finish_lui _ (readAs_immU w rfl)
  | AUIPC => exact finish_auipc _ (readAs_immU w rfl)
  | JAL => exact finish_jal _ (readAs_immJ w rfl)
  | JALR => exact finish_jalr _ (readAs_immI w rfl rfl) hc
  | UNDEFINED => exact absurd rfl hne
  | _ => exact hc.elim

/-- A single step of the simulator on a covered word is a step of the manual's machine. -/
theorem step_covered (hv : s.mmu.isVirtualAddressing = false) {inst : Inst}
    (hf : s.mmu.fetchInst s.pc = .ok inst) (hc : Covered inst)
    (ha : ∀ i, current s.machine = some i → ∀ a n wr, access s.machine i = some (a, n, wr) →
      a.toNat + n < s.mmu.pmem_size_) :
    ∃ i, current s.machine = some i ∧
      SingleStep.step.run s = .ok () (s.withMachine (exec s.machine i)) := by
  obtain ⟨ptr, hp, hd⟩ := bind_eq_ok.mp hf
  rw [MMU.getMemPtr_setWidth] at hp
  split at hp
  · cases hp
  cases hp
  obtain ⟨hs, hi⟩ := (decode_ok_iff _ inst).mp hd
  have hcur : current s.machine = some (instrOf inst.getCmd (s.mmu.readMem 4 s.pc.toNat)) :=
    decode_of_selects hs hc
  refine ⟨_, hcur, ?_⟩
  rw [step_bare hv, hf]
  change finish (((getCmdDesc inst.cmd_).exec_func.exec inst 0).run s) = _
  have hfin := finish_covered hs (hi ▸ hc) hv (ha _ hcur)
  rwa [← hi] at hfin

end Rv32i

end RiscvSim
