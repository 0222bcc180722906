import Mathlib.Data.BitVec

namespace RiscvSim

abbrev U8 := BitVec 8
abbrev U32 := BitVec 32
abbrev U64 := BitVec 64

/-- How a call ends early: a `SimException` with its text, behaviour C++ leaves undefined
(an index past an array, `back()` of an empty list), or a loop that was given up. -/
inductive Stop
  | simException (what : String)
  | undefinedBehaviour
  | outOfFuel
  deriving DecidableEq, Repr

namespace Isa

inductive CmdFormat
  | R | I | S | U | B | J
  | UNDEFINED
  deriving DecidableEq, Repr

inductive Opcode
  | LOAD | STORE | BRANCH | JALR | JAL | OP_IMM | OP | SYSTEM | AUIPC | LUI | MSCMEM
  deriving DecidableEq, Repr

inductive Cmd
  | LUI | AUIPC | JAL | JALR | BEQ | BNE | BLT | BGE | BLTU | BGEU
  | LB | LH | LW | LBU | LHU | SB | SH | SW
  | ADDI | SLTI | SLTIU | XORI | ORI | ANDI | SLLI | SRLI | SRAI
  | ADD | SUB | SLL | SLT | SLTU | XOR | SRL | SRA | OR | AND
  | ECALL | EBREAK | URET | SRET | MRET | WFI | FENCE
  | CSRRW | CSRRS | CSRRC | CSRRWI | CSRRSI | CSRRCI
  | MUL | MULH | MULHSU | MULHU | DIV | DIVU | REM | REMU
  | UNDEFINED
  deriving DecidableEq, Repr

/-- The interpreter functions a command row can point to. -/
inductive ExecFunc
  | ExecDummy | ExecECALL | ExecFENCE
  | ExecLB | ExecLH | ExecLW | ExecLBU | ExecLHU | ExecSB | ExecSH | ExecSW
  | ExecLUI | ExecAUIPC | ExecJAL | ExecJALR
  | ExecBEQ | ExecBNE | ExecBLT | ExecBGE | ExecBLTU | ExecBGEU
  | ExecADDI | ExecSLTI | ExecSLTIU | ExecXORI | ExecORI | ExecANDI
  | ExecSLLI | ExecSRLI | ExecSRAI
  | ExecADD | ExecSUB | ExecSLL | ExecSLT | ExecSLTU | ExecXOR | ExecSRL | ExecSRA
  | ExecOR | ExecAND | ExecCSRRW
  | ExecMUL | ExecMULH | ExecMULHSU | ExecMULHU | ExecDIV | ExecDIVU | ExecREM | ExecREMU
  deriving DecidableEq, Repr

/-- The translation templates a command row can point to. -/
inductive TranslateFunc
  | TranslateLB | TranslateLH | TranslateLW | TranslateLBU | TranslateLHU
  | TranslateSB | TranslateSH | TranslateSW
  | TranslateLUI | TranslateAUIPC | TranslateJAL | TranslateJALR
  | TranslateBEQ | TranslateBNE | TranslateBLT | TranslateBGE | TranslateBLTU | TranslateBGEU
  | TranslateADDI | TranslateSLTI | TranslateSLTIU | TranslateXORI | TranslateORI | TranslateANDI
  | TranslateSLLI | TranslateSRLI | TranslateSRAI
  | TranslateADD | TranslateSUB | TranslateSLL | TranslateSLT | TranslateSLTU | TranslateXOR
  | TranslateSRL | TranslateSRA | TranslateOR | TranslateAND | TranslateMUL | TranslateMULH
  deriving DecidableEq, Repr

structure OpcodeDesc where
  opcode : U8
  format : CmdFormat
  deriving DecidableEq, Repr

structure CmdDesc where
  exec_func : ExecFunc
  translate_func : Option TranslateFunc
  opcode : Opcode
  funct3 : U8 := 0
  funct7 : U8 := 0
  deriving DecidableEq, Repr

open CmdFormat in
def opcode_desc : List OpcodeDesc := [
  ⟨0b00000, I⟩,
  ⟨0b01000, S⟩,
  ⟨0b11000, B⟩,
  ⟨0b11001, I⟩,
  ⟨0b11011, J⟩,
  ⟨0b00100, I⟩,
  ⟨0b01100, R⟩,
  ⟨0b11100, I⟩,
  ⟨0b00101, U⟩,
  ⟨0b01101, U⟩,
  ⟨0b00011, I⟩]

open ExecFunc TranslateFunc in
def cmd_desc : List CmdDesc := [
  ⟨ExecLUI, some TranslateLUI, .LUI, 0, 0⟩,
  ⟨ExecAUIPC, some TranslateAUIPC, .AUIPC, 0, 0⟩,
  ⟨ExecJAL, some TranslateJAL, .JAL, 0, 0⟩,
  ⟨ExecJALR, some TranslateJALR, .JALR, 0b000, 0⟩,
  ⟨ExecBEQ, some TranslateBEQ, .BRANCH, 0b000, 0⟩,
  ⟨ExecBNE, some TranslateBNE, .BRANCH, 0b001, 0⟩,
  ⟨ExecBLT, some TranslateBLT, .BRANCH, 0b100, 0⟩,
  ⟨ExecBGE, some TranslateBGE, .BRANCH, 0b101, 0⟩,
  ⟨ExecBLTU, some TranslateBLTU, .BRANCH, 0b110, 0⟩,
  ⟨ExecBGEU, some TranslateBGEU, .BRANCH, 0b111, 0⟩,
  ⟨ExecLB, some TranslateLB, .LOAD, 0b000, 0⟩,
  ⟨ExecLH, some TranslateLH, .LOAD, 0b001, 0⟩,
  ⟨ExecLW, some TranslateLW, .LOAD, 0b010, 0⟩,
  ⟨ExecLBU, some TranslateLBU, .LOAD, 0b100, 0⟩,
  ⟨ExecLHU, some TranslateLHU, .LOAD, 0b101, 0⟩,
  ⟨ExecSB, some TranslateSB, .STORE, 0b000, 0⟩,
  ⟨ExecSH, some TranslateSH, .STORE, 0b001, 0⟩,
  ⟨ExecSW, some TranslateSW, .STORE, 0b010, 0⟩,
  ⟨ExecADDI, some TranslateADDI, .OP_IMM, 0b000, 0⟩,
  ⟨ExecSLTI, some TranslateSLTI, .OP_IMM, 0b010, 0⟩,
  ⟨ExecSLTIU, some TranslateSLTIU, .OP_IMM, 0b011, 0⟩,
  ⟨ExecXORI, some TranslateXORI, .OP_IMM, 0b100, 0⟩,
  ⟨ExecORI, some TranslateORI, .OP_IMM, 0b110, 0⟩,
  ⟨ExecANDI, some TranslateANDI, .OP_IMM, 0b111, 0⟩,
  ⟨ExecSLLI, some TranslateSLLI, .OP_IMM, 0b001, 0⟩,
  ⟨ExecSRLI, some TranslateSRLI, .OP_IMM, 0b101, 0⟩,
  ⟨ExecSRAI, some TranslateSRAI, .OP_IMM, 0b101, 0⟩,
  ⟨ExecADD, some TranslateADD, .OP, 0b000, 0b0000000⟩,
  ⟨ExecSUB, some TranslateSUB, .OP, 0b000, 0b0100000⟩,
  ⟨ExecSLL, some TranslateSLL, .OP, 0b001, 0b0000000⟩,
  ⟨ExecSLT, some TranslateSLT, .OP, 0b010, 0b0000000⟩,
  ⟨ExecSLTU, some TranslateSLTU, .OP, 0b011, 0b0000000⟩,
  ⟨ExecXOR, some TranslateXOR, .OP, 0b100, 0b0000000⟩,
  ⟨ExecSRL, some TranslateSRL, .OP, 0b101, 0b0000000⟩,
  ⟨ExecSRA, some TranslateSRA, .OP, 0b101, 0b0100000⟩,
  ⟨ExecOR, some TranslateOR, .OP, 0b110, 0b0000000⟩,
  ⟨ExecAND, some TranslateAND, .OP, 0b111, 0b0000000⟩,
  ⟨ExecECALL, none, .SYSTEM, 0b000, 0⟩,
  ⟨ExecDummy, none, .SYSTEM, 0b000, 0⟩,
  ⟨ExecDummy, none, .SYSTEM, 0b000, 0⟩,
  ⟨ExecDummy, none, .SYSTEM, 0b000, 0⟩,
  ⟨ExecDummy, none, .SYSTEM, 0b000, 0⟩,
  ⟨ExecDummy, none, .SYSTEM, 0b000, 0⟩,
  ⟨ExecFENCE, none, .MSCMEM, 0b000, 0⟩,
  ⟨ExecCSRRW, none, .SYSTEM, 0b001, 0⟩,
  ⟨ExecDummy, none, .SYSTEM, 0b010, 0⟩,
  ⟨ExecDummy, none, .SYSTEM, 0b011, 0⟩,
  ⟨ExecDummy, none, .SYSTEM, 0b101, 0⟩,
  ⟨ExecDummy, none, .SYSTEM, 0b110, 0⟩,
  ⟨ExecDummy, none, .SYSTEM, 0b111, 0⟩,
  ⟨ExecMUL, some TranslateMUL, .OP, 0b000, 0b0000001⟩,
  ⟨ExecMULH, some TranslateMULH, .OP, 0b001, 0b0000001⟩,
  ⟨ExecMULHSU, none, .OP, 0b010, 0b0000001⟩,
  ⟨ExecMULHU, none, .OP, 0b011, 0b0000001⟩,
  ⟨ExecDIV, none, .OP, 0b100, 0b0000001⟩,
  ⟨ExecDIVU, none, .OP, 0b101, 0b0000001⟩,
  ⟨ExecREM, none, .OP, 0b110, 0b0000001⟩,
  ⟨ExecREMU, none, .OP, 0b111, 0b0000001⟩]

theorem cmd_desc_length : cmd_desc.length = 58 := rfl

theorem Opcode.ctorIdx_lt (o : Opcode) : o.ctorIdx < opcode_desc.length := by
  cases o <;> decide

def getOpcodeDesc (o : Opcode) : OpcodeDesc := opcode_desc.get ⟨o.ctorIdx, o.ctorIdx_lt⟩

/-- A command other than the stub: a row of `cmd_desc`. -/
abbrev Command := { c : Cmd // c ≠ .UNDEFINED }

namespace Command

abbrev ADDI : Command := ⟨.ADDI, nofun⟩
abbrev SUB : Command := ⟨.SUB, nofun⟩
abbrev SW : Command := ⟨.SW, nofun⟩
abbrev JAL : Command := ⟨.JAL, nofun⟩
abbrev BNE : Command := ⟨.BNE, nofun⟩
abbrev SRLI : Command := ⟨.SRLI, nofun⟩
abbrev SRAI : Command := ⟨.SRAI, nofun⟩
abbrev ECALL : Command := ⟨.ECALL, nofun⟩
abbrev EBREAK : Command := ⟨.EBREAK, nofun⟩
abbrev URET : Command := ⟨.URET, nofun⟩
abbrev SRET : Command := ⟨.SRET, nofun⟩
abbrev MRET : Command := ⟨.MRET, nofun⟩
abbrev WFI : Command := ⟨.WFI, nofun⟩

end Command

theorem Command.ctorIdx_lt (c : Command) : c.val.ctorIdx < cmd_desc.length := by
  obtain ⟨c, hc⟩ := c
  cases c <;> first | exact absurd rfl hc | (simp only [cmd_desc_length]; decide)

def getCmdDesc (c : Command) : CmdDesc := cmd_desc.get ⟨c.val.ctorIdx, c.ctorIdx_lt⟩

end Isa

end RiscvSim
