import RiscvSim.State

namespace RiscvSim

open Isa Ir X86

/-- `jit::Translator`, with the code emitted so far; `labels` is the number of labels made.
`isVirtualAddressing` is what `MMU::isVirtualAddressing` answers during the translation. -/
structure Translator where
  func_start_ : ℕ
  cur_inst_ : ℕ
  code_ : NativeCode
  labels : ℕ
  reg_mapping_ : Reg → Operand
  reg_pool_ : List Gp
  liveness_ : List (Reg → Bool)
  isVirtualAddressing : Bool

abbrev Tr := StateM Translator

/-- The offsets of the members of `sim::State`. -/
def offsetofRegs : U64 := 0
def offsetofPc : U64 := 128
def offsetofMem : U64 := 136
def offsetofInsts : U64 := 144

namespace Translator

def pool : List Gp := [.rsi, .rcx, .r8, .r9, .r10, .r11]

def getRegMemOp (reg : Reg) : Operand :=
  .mem ⟨.rdi, offsetofRegs + BitVec.ofNat 64 (reg.val * 4), 32⟩

def getPc : Operand := .mem ⟨.rdi, offsetofPc, 32⟩

def getMem : Operand := .mem ⟨.rdi, offsetofMem, 64⟩

def getTmp1 : Operand := .reg .rax 32

def getTmp2 : Operand := .reg .rdx 32

def getReg (tr : Translator) (reg : Reg) : Operand := if reg ≠ 0 then tr.reg_mapping_ reg else .imm 0

def getOffset (tr : Translator) : U64 := BitVec.ofNat 64 (tr.cur_inst_ * 4)

def emit (i : X86.Inst Callee) : Tr Unit := modify fun tr ↦ { tr with code_ := tr.code_ ++ X86.emit i }

def newLabel : Tr ℕ := modifyGet fun tr ↦ (tr.labels, { tr with labels := tr.labels + 1 })

def bindLabel (label : ℕ) : Tr Unit := modify fun tr ↦ { tr with code_ := tr.code_ ++ [.label label] }

/-- The registers 1 to 31, in the order of the loops over `reg_mapping_`. -/
def allRegs : List Reg := (List.finRange 32).tail

def saveAllRegs : Tr Unit :=
  allRegs.forM fun reg ↦ do
    let op := (← get).reg_mapping_ reg
    if op.isReg then emit (.push op)

def restoreAllRegs : Tr Unit :=
  allRegs.reverse.forM fun reg ↦ do
    let op := (← get).reg_mapping_ reg
    if op.isReg then emit (.pop op)

/-- One round of `calcLiveness`: what is live before an instruction. -/
def liveBefore (inst : Inst) (cur_info : Reg → Bool) : Reg → Bool :=
  let cur_info := if inst.isRd then Function.update cur_info inst.getRd false else cur_info
  let cur_info := if inst.isRs1 then Function.update cur_info inst.getRs1 true else cur_info
  if inst.isRs2 then Function.update cur_info inst.getRs2 true else cur_info

def liveIn : List Inst → Reg → Bool
  | [] => fun _ ↦ false
  | inst :: rest => liveBefore inst (liveIn rest)

/-- Entry `i` is what is live after instruction `i`. -/
def calcLiveness : List Inst → List (Reg → Bool)
  | [] => []
  | _ :: rest => liveIn rest :: calcLiveness rest

def allocateReg (reg : Reg) (load : Bool := false) : Tr Unit := do
  let tr ← get
  if (tr.reg_mapping_ reg).isReg then return
  match tr.reg_pool_ with
  | [] => return
  | host :: pool =>
    set { tr with
      reg_mapping_ := Function.update tr.reg_mapping_ reg (.reg host 32)
      reg_pool_ := pool }
    if load then emit (.bin .mov (.reg host 32) (getRegMemOp reg))

def deallocateReg (reg : Reg) (sink : Bool := false) : Tr Unit := do
  match (← get).reg_mapping_ reg with
  | .reg host w =>
    if sink then emit (.bin .mov (getRegMemOp reg) (.reg host w))
    modify fun tr ↦ { tr with
      reg_pool_ := tr.reg_pool_ ++ [host]
      reg_mapping_ := Function.update tr.reg_mapping_ reg (getRegMemOp reg) }
  | _ => return

def deallocateAllRegs : Tr Unit := allRegs.forM fun reg ↦ deallocateReg reg true

/-- `liveness_[cur_inst_][reg]` -/
def live (tr : Translator) (reg : Reg) : Bool := (tr.liveness_.getD tr.cur_inst_ fun _ ↦ false) reg

def preWork (inst : Inst) : Tr Unit := do
  if inst.isRs1 ∧ inst.getRs1 ≠ 0 ∧ (← get).live inst.getRs1 then allocateReg inst.getRs1 true
  if inst.isRs2 ∧ inst.getRs2 ≠ 0 ∧ (← get).live inst.getRs2 then allocateReg inst.getRs2 true
  if inst.isRd ∧ inst.getRd ≠ 0 ∧ (← get).live inst.getRd then allocateReg inst.getRd

def postWork (inst : Inst) : Tr Unit := do
  if inst.isRs1 ∧ inst.getRs1 ≠ 0 ∧ (← get).live inst.getRs1 = false then
    deallocateReg inst.getRs1 true
  if inst.isRs2 ∧ inst.getRs2 ≠ 0 ∧ (← get).live inst.getRs2 = false then
    deallocateReg inst.getRs2 true
  if inst.isRd ∧ inst.getRd ≠ 0 ∧ (← get).live inst.getRd = false then
    deallocateReg inst.getRd true

def init (trace : List Inst) (isVirtualAddressing : Bool) : Translator where
  func_start_ := 0
  cur_inst_ := 0
  code_ := []
  labels := 1
  reg_mapping_ := getRegMemOp
  reg_pool_ := pool
  liveness_ := calcLiveness trace
  isVirtualAddressing := isVirtualAddressing

/-- The loop of the constructor. -/
def translateAll (translate : Inst → Tr Unit) : List Inst → Tr Unit
  | [] => return
  | inst :: rest => do
    preWork inst
    translate inst
    postWork inst
    modify fun tr ↦ { tr with cur_inst_ := tr.cur_inst_ + 1 }
    translateAll translate rest

/-- What the constructor emits for a trace of supported instructions. -/
def emitTrace (translate : Inst → Tr Unit) (trace : List Inst) : Tr Unit := do
  bindLabel (← get).func_start_
  emit (.bin .add (.mem ⟨.rdi, offsetofInsts, 64⟩) (.imm (BitVec.ofNat 64 trace.length)))
  translateAll translate trace
  emit .ret

end Translator

end RiscvSim
