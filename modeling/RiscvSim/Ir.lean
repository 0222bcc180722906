import RiscvSim.IsaDesc

namespace RiscvSim.Ir

open Isa

/-- A guest register number; the bound is what the constructor asserts. -/
abbrev Reg := Fin 32

instance Reg.instNeZero : NeZero 32 := ⟨by decide⟩

namespace Reg

def a0 : Reg := 10
def a1 : Reg := 11
def a2 : Reg := 12
def a7 : Reg := 17
def sp : Reg := 2

end Reg

structure Inst where
  imm_ : U32
  rs1_ : Reg
  rs2_ : Reg
  rd_ : Reg
  cmd_ : Command
  deriving DecidableEq

namespace Inst

def func_ (i : Inst) : ExecFunc := (getCmdDesc i.cmd_).exec_func

def getCmd (i : Inst) : Cmd := i.cmd_.val

def getOpcode (i : Inst) : Opcode := (getCmdDesc i.cmd_).opcode

def getCmdFormat (i : Inst) : CmdFormat := (getOpcodeDesc i.getOpcode).format

def isImm (i : Inst) : Bool := i.getCmdFormat != .R

def getImm (i : Inst) : U32 := i.imm_

def isRs1 (i : Inst) : Bool := i.getCmdFormat != .U && i.getCmdFormat != .J

def getRs1 (i : Inst) : Reg := i.rs1_

def isRs2 (i : Inst) : Bool :=
  i.getCmdFormat != .I && i.getCmdFormat != .U && i.getCmdFormat != .J

def getRs2 (i : Inst) : Reg := i.rs2_

def isRd (i : Inst) : Bool := i.getCmdFormat != .S && i.getCmdFormat != .B

def getRd (i : Inst) : Reg := i.rd_

def isTerminator (i : Inst) : Bool :=
  if i.getCmd = .FENCE then true
  else match i.getOpcode with
    | .BRANCH | .JALR | .JAL => true
    | _ => false

def isTranslationSupported (i : Inst) : Bool := (getCmdDesc i.cmd_).translate_func.isSome

end Inst

/-- `GenInst`, one constructor for each format; the fields a format lacks are zero. -/
def genR (cmd : Command) (rd rs1 rs2 : Reg) : Inst := ⟨0, rs1, rs2, rd, cmd⟩

def genI (cmd : Command) (rd rs1 : Reg) (imm : U32) : Inst := ⟨imm, rs1, 0, rd, cmd⟩

def genS (cmd : Command) (imm : U32) (rs1 rs2 : Reg) : Inst := ⟨imm, rs1, rs2, 0, cmd⟩

def genU (cmd : Command) (rd : Reg) (imm : U32) : Inst := ⟨imm, 0, 0, rd, cmd⟩

def genB (cmd : Command) (imm : U32) (rs1 rs2 : Reg) : Inst := ⟨imm, rs1, rs2, 0, cmd⟩

def genJ (cmd : Command) (rd : Reg) (imm : U32) : Inst := ⟨imm, 0, 0, rd, cmd⟩

end RiscvSim.Ir
