import RiscvSim.Translator

namespace RiscvSim

open Isa Ir X86 Translator

namespace TranslateInst

variable (inst : Inst)

def RS1 : Tr Operand := do return (← get).getReg inst.getRs1

def RS2 : Tr Operand := do return (← get).getReg inst.getRs2

def RD : Tr Operand := do return (← get).getReg inst.getRd

def OFFSET : Tr U64 := do return (← get).getOffset

/-- `Imm(IMM)` of the signed immediate. -/
def IMM : U64 := inst.getImm.signExtend 64

def TMP1 : Operand := getTmp1

def TMP2 : Operand := getTmp2

def PC : Operand := getPc

def translateMove (dst src : Operand) : Tr Unit :=
  if dst.isReg && src == .imm 0 then emit (.bin .xor dst dst) else emit (.bin .mov dst src)

/-- The move that needs a temporary where both operands are in memory. -/
def moveVia (dst src : Operand) : Tr Unit :=
  if dst.isReg || src.isReg then translateMove dst src
  else do
    translateMove TMP1 src
    translateMove dst TMP1

def translateMMULoad (T : AccessAs) : Tr Unit := do
  saveAllRegs
  emit (.bin .mov (.reg .rdi 32) (← RS1 inst))
  emit (.bin .add (.reg .rdi 32) (.imm (IMM inst)))
  emit (.call (.read T))
  restoreAllRegs

def translateMMUStore (T : AccessAs) : Tr Unit := do
  saveAllRegs
  emit (.bin .mov (.reg .rdi 32) (← RS1 inst))
  emit (.bin .add (.reg .rdi 32) (.imm (IMM inst)))
  emit (.bin .mov (.reg .rsi 32) (← RS2 inst))
  emit (.call (.write T))
  restoreAllRegs

/-- The operand that is compared: a register, or a copy in one. -/
def firstOperand : Tr Operand := do
  let rs1 ← RS1 inst
  if rs1.isMem || rs1.isImm then
    translateMove TMP1 rs1
    return TMP1
  else return rs1

def takenOffset (offset : U64) : U64 := offset + (inst.getImm * 2).signExtend 64

def translateCondBranch (cond : Cond) : Tr Unit := do
  let fst ← firstOperand inst
  emit (.bin .cmp fst (← RS2 inst))
  let offset ← OFFSET
  if takenOffset inst offset ≠ 0 then
    let taken ← newLabel
    let exit ← newLabel
    emit (.jcc cond taken)
    emit (.bin .add PC (.imm (offset + 4)))
    emit (.jmp exit)
    bindLabel taken
    emit (.bin .add PC (.imm (takenOffset inst offset)))
    bindLabel exit
  else
    deallocateAllRegs
    emit (.jcc cond (← get).func_start_)
    emit (.bin .add PC (.imm (offset + 4)))

def translateImmType (id : Id) : Tr Unit := do
  if inst.getRd = 0 then return
  let rd ← RD inst
  let rs1 ← RS1 inst
  if rd ≠ rs1 then moveVia rd rs1
  emit (.bin id rd (.imm (IMM inst)))

def translateRegType (id : Id) : Tr Unit := do
  if inst.getRd = 0 then return
  let rd ← RD inst
  let rs1 ← RS1 inst
  let rs2 ← RS2 inst
  if rd = rs1 then
    if rd.isReg || rs2.isReg then emit (.bin id rd rs2)
    else
      translateMove TMP1 rs2
      emit (.bin id rd TMP1)
  else if rd ≠ rs2 ∧ (rd.isReg || !rs1.isMem) then
    translateMove rd rs1
    emit (.bin id rd rs2)
  else
    translateMove TMP1 rs1
    emit (.bin id TMP1 rs2)
    translateMove rd TMP1

def translateShift (id : Id) : Tr Unit := do
  if inst.getRd = 0 then return
  let rd ← RD inst
  let rs1 ← RS1 inst
  let dst := if rd.isMem then TMP1 else rd
  if dst ≠ rs1 then translateMove dst rs1
  if rd.isMem then translateMove rd TMP1
  if inst.getRs2 = 0 then return
  translateMove TMP1 (.reg .rcx 32)
  translateMove (.reg .rcx 32) (← RS2 inst)
  emit (.bin id rd (.reg .rcx 8))
  translateMove (.reg .rcx 32) TMP1

/-- `ptr_w(TMP1.r64(), IMM)` -/
def guest (w : ℕ) : Operand := .mem ⟨.rax, IMM inst, w⟩

/-- The loads by shape: what follows the call when addresses are virtual, and the
instruction that reads guest memory otherwise. -/
def translateLoad (T : AccessAs) (result : Operand → Tr Unit) (access : Operand → Operand → Tr Unit) :
    Tr Unit := do
  if (← get).isVirtualAddressing then
    translateMMULoad inst T
    result (← RD inst)
  else
    translateMove TMP1 (← RS1 inst)
    emit (.bin .add (.reg .rax 64) getMem)
    let rd ← RD inst
    if rd.isReg then access rd (guest inst (8 * T.bytes))
    else
      access TMP2 (guest inst (8 * T.bytes))
      translateMove rd TMP2

/-- The low part of a 32-bit register. -/
def lowPart (w : ℕ) : Operand → Operand
  | .reg r _ => .reg r w
  | op => op

def translateStore (T : AccessAs) : Tr Unit := do
  if (← get).isVirtualAddressing then translateMMUStore inst T
  else
    translateMove TMP1 (← RS1 inst)
    emit (.bin .add (.reg .rax 64) getMem)
    let rs2 ← RS2 inst
    if rs2.isReg then translateMove (guest inst (8 * T.bytes)) (lowPart (8 * T.bytes) rs2)
    else
      translateMove TMP2 rs2
      translateMove (guest inst (8 * T.bytes)) (lowPart (8 * T.bytes) TMP2)

def movsx (dst src : Operand) : Tr Unit := emit (.bin .movsx dst src)

def movzx (dst src : Operand) : Tr Unit := emit (.bin .movzx dst src)

def translateLB : Tr Unit := translateLoad inst .int8_t (fun rd ↦ movsx rd (.reg .rax 8)) movsx

def translateLH : Tr Unit := translateLoad inst .int16_t (fun rd ↦ movsx rd (.reg .rax 16)) movsx

def translateLW : Tr Unit :=
  translateLoad inst .int32_t (fun rd ↦ translateMove rd (.reg .rax 32)) translateMove

def translateLBU : Tr Unit :=
  translateLoad inst .uint8_t (fun rd ↦ translateMove rd (.reg .rax 8)) movzx

def translateLHU : Tr Unit :=
  translateLoad inst .uint16_t (fun rd ↦ translateMove rd (.reg .rax 16)) movzx

def translateSB : Tr Unit := translateStore inst .uint8_t

def translateSH : Tr Unit := translateStore inst .uint16_t

def translateSW : Tr Unit := translateStore inst .uint32_t

def translateLUI : Tr Unit := do translateMove (← RD inst) (.imm (inst.getImm.setWidth 64))

def translateAUIPC : Tr Unit := do
  translateMove TMP1 PC
  emit (.bin .add TMP1 (.imm ((← OFFSET) + inst.getImm.setWidth 64)))
  translateMove (← RD inst) TMP1

def translateJAL : Tr Unit := do
  let offset ← OFFSET
  if inst.getRd ≠ 0 then
    let rd ← RD inst
    translateMove TMP1 PC
    translateMove rd TMP1
    emit (.bin .add rd (.imm (offset + 4)))
    emit (.bin .add PC (.imm (takenOffset inst offset)))
  else
    emit (.bin .add PC (.imm (takenOffset inst offset)))

def translateJALR : Tr Unit := do
  emit (.bin .add PC (.imm ((← OFFSET) + 4)))
  translateMove TMP1 PC
  translateMove (← RD inst) TMP1
  translateMove TMP1 (← RS1 inst)
  emit (.bin .add TMP1 (.imm (IMM inst)))
  emit (.bin .and TMP1 (.imm 0xfffffffe))
  translateMove PC TMP1

def translateBEQ : Tr Unit := translateCondBranch inst .e

def translateBNE : Tr Unit := translateCondBranch inst .ne

def translateBLT : Tr Unit := translateCondBranch inst .l

def translateBGE : Tr Unit := translateCondBranch inst .ge

def translateBLTU : Tr Unit := translateCondBranch inst .b

def translateBGEU : Tr Unit := translateCondBranch inst .ae

def translateADDI : Tr Unit := do
  let rd ← RD inst
  if inst.getRs1 = 0 then translateMove rd (.imm (IMM inst))
  else if inst.getImm = 0 then moveVia rd (← RS1 inst)
  else translateImmType inst .add

def translateSLTI : Tr Unit := do
  emit (.bin .cmp (← RS1 inst) (.imm (IMM inst)))
  emit (.bin .mov (← RD inst) (.imm 0))
  emit (.set .l (← RD inst))

def translateSLTIU : Tr Unit := do
  emit (.bin .cmp (← RS1 inst) (.imm (inst.getImm.setWidth 64)))
  emit (.bin .mov (← RD inst) (.imm 0))
  emit (.set .b (← RD inst))

def translateXORI : Tr Unit := translateImmType inst .xor

def translateORI : Tr Unit := translateImmType inst .or

def translateANDI : Tr Unit := translateImmType inst .and

def translateSLLI : Tr Unit := translateImmType inst .shl

def translateSRLI : Tr Unit := translateImmType inst .shr

def translateSRAI : Tr Unit := translateImmType inst .sar

def translateADD : Tr Unit := do
  if inst.getRs1 = 0 ∨ inst.getRs2 = 0 then
    let src ← if inst.getRs1 ≠ 0 then RS1 inst else RS2 inst
    moveVia (← RD inst) src
  translateRegType inst .add

def translateSUB : Tr Unit := translateRegType inst .sub

def translateSLL : Tr Unit := translateShift inst .shl

/-- A comparison into a register: `SLT` and `SLTU`. -/
def translateSet (cond : Cond) : Tr Unit := do
  let fst ← firstOperand inst
  emit (.bin .cmp fst (← RS2 inst))
  emit (.bin .mov (← RD inst) (.imm 0))
  emit (.set cond (← RD inst))

def translateSLT : Tr Unit := translateSet inst .l

def translateSLTU : Tr Unit := translateSet inst .b

def translateXOR : Tr Unit := translateRegType inst .xor

def translateSRL : Tr Unit := translateShift inst .shr

def translateSRA : Tr Unit := translateShift inst .sar

def translateOR : Tr Unit := translateRegType inst .or

def translateAND : Tr Unit := translateRegType inst .and

/-- Both halves come from the unsigned product. -/
def translateProduct (half : Operand) : Tr Unit := do
  translateMove TMP1 (← RS1 inst)
  emit (.mul (← RS2 inst))
  translateMove (← RD inst) half

def translateMUL : Tr Unit := translateProduct inst TMP1

def translateMULH : Tr Unit := translateProduct inst TMP2

end TranslateInst

open TranslateInst in
/-- The call through `translate_func`. -/
def Isa.TranslateFunc.translate (func : TranslateFunc) (inst : Inst) : Tr Unit :=
  match func with
  | .TranslateLB => translateLB inst
  | .TranslateLH => translateLH inst
  | .TranslateLW => translateLW inst
  | .TranslateLBU => translateLBU inst
  | .TranslateLHU => translateLHU inst
  | .TranslateSB => translateSB inst
  | .TranslateSH => translateSH inst
  | .TranslateSW => translateSW inst
  | .TranslateLUI => translateLUI inst
  | .TranslateAUIPC => translateAUIPC inst
  | .TranslateJAL => translateJAL inst
  | .TranslateJALR => translateJALR inst
  | .TranslateBEQ => translateBEQ inst
  | .TranslateBNE => translateBNE inst
  | .TranslateBLT => translateBLT inst
  | .TranslateBGE => translateBGE inst
  | .TranslateBLTU => translateBLTU inst
  | .TranslateBGEU => translateBGEU inst
  | .TranslateADDI => translateADDI inst
  | .TranslateSLTI => translateSLTI inst
  | .TranslateSLTIU => translateSLTIU inst
  | .TranslateXORI => translateXORI inst
  | .TranslateORI => translateORI inst
  | .TranslateANDI => translateANDI inst
  | .TranslateSLLI => translateSLLI inst
  | .TranslateSRLI => translateSRLI inst
  | .TranslateSRAI => translateSRAI inst
  | .TranslateADD => translateADD inst
  | .TranslateSUB => translateSUB inst
  | .TranslateSLL => translateSLL inst
  | .TranslateSLT => translateSLT inst
  | .TranslateSLTU => translateSLTU inst
  | .TranslateXOR => translateXOR inst
  | .TranslateSRL => translateSRL inst
  | .TranslateSRA => translateSRA inst
  | .TranslateOR => translateOR inst
  | .TranslateAND => translateAND inst
  | .TranslateMUL => translateMUL inst
  | .TranslateMULH => translateMULH inst

namespace Ir.Inst

def translate (inst : Inst) : Tr Unit :=
  match (getCmdDesc inst.cmd_).translate_func with
  | some func => func.translate inst
  | none => return

end Ir.Inst

/-- `Translator(trace).getFunc()`: no code if some instruction has no translation. -/
def Translator.getFunc (trace : List Inst) (isVirtualAddressing : Bool) : Option NativeCode :=
  if trace.all Inst.isTranslationSupported then
    some (emitTrace Inst.translate trace (init trace isVirtualAddressing)).2.code_
  else none

end RiscvSim
