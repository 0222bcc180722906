import RiscvSim.Ir

namespace RiscvSim

open Isa Ir

namespace Isa

/-- The packed structs a command word is copied into, field by field from bit 0. -/
structure RFormat where
  rd : BitVec 5
  funct3 : BitVec 3
  rs1 : BitVec 5
  rs2 : BitVec 5
  funct7 : BitVec 7

structure IFormat where
  rd : BitVec 5
  funct3 : BitVec 3
  rs1 : BitVec 5
  imm : BitVec 12

structure SFormat where
  imm1 : BitVec 5
  funct3 : BitVec 3
  rs1 : BitVec 5
  rs2 : BitVec 5
  imm2 : BitVec 7

structure UFormat where
  rd : BitVec 5
  imm : BitVec 20

def RFormat.ofWord (w : U32) : RFormat :=
  ⟨w.extractLsb' 7 5, w.extractLsb' 12 3, w.extractLsb' 15 5, w.extractLsb' 20 5, w.extractLsb' 25 7⟩

def IFormat.ofWord (w : U32) : IFormat :=
  ⟨w.extractLsb' 7 5, w.extractLsb' 12 3, w.extractLsb' 15 5, w.extractLsb' 20 12⟩

def SFormat.ofWord (w : U32) : SFormat :=
  ⟨w.extractLsb' 7 5, w.extractLsb' 12 3, w.extractLsb' 15 5, w.extractLsb' 20 5, w.extractLsb' 25 7⟩

def UFormat.ofWord (w : U32) : UFormat := ⟨w.extractLsb' 7 5, w.extractLsb' 12 20⟩

end Isa

def toReg (r : BitVec 5) : Reg := r.toFin

/-- `SignExtend`: bit `n` of `imm` fills the bits above it. -/
def signExtend (imm : U32) (n : ℕ) : U32 :=
  let mask := (~~~0#32) <<< n
  if imm &&& (1#32 <<< n) ≠ 0 then imm ||| mask else imm

structure Decoder where
  opc_to_fmt_ : Vector CmdFormat 32
  opc_funct3_to_cmd_ : Vector U8 256
  funct7_to_cmd_ : Array (Vector Cmd 128)
  deriving DecidableEq

namespace Decoder

def fetch {α : Type} {n : ℕ} (xs : Vector α n) (i : ℕ) : Except Stop α :=
  if h : i < n then .ok xs[i] else .error .undefinedBehaviour

def store {α : Type} {n : ℕ} (xs : Vector α n) (i : ℕ) (a : α) : Except Stop (Vector α n) :=
  if h : i < n then .ok (xs.set i a) else .error .undefinedBehaviour

def undefinedCmd : U8 := BitVec.ofNat 8 Cmd.UNDEFINED.ctorIdx

def empty : Decoder where
  opc_to_fmt_ := .replicate 32 .UNDEFINED
  opc_funct3_to_cmd_ := .replicate 256 undefinedCmd
  funct7_to_cmd_ := #[]

/-- One round of the loop that fills `opc_to_fmt_`. -/
def addOpcode (d : Decoder) (op_desc : OpcodeDesc) : Except Stop Decoder := do
  let fmt ← store d.opc_to_fmt_ op_desc.opcode.toNat op_desc.format
  return { d with opc_to_fmt_ := fmt }

/-- Row `i` of an R-format command goes to an inner table, made at the first use
of its opcode and funct3. -/
def addFunct7 (d : Decoder) (i opc_funct3 funct7 : ℕ) : Except Stop Decoder := do
  let d ← (do
    if (← fetch d.opc_funct3_to_cmd_ opc_funct3) = undefinedCmd then
      let cmds ← store d.opc_funct3_to_cmd_ opc_funct3 (BitVec.ofNat 8 d.funct7_to_cmd_.size)
      return { d with
        opc_funct3_to_cmd_ := cmds
        funct7_to_cmd_ := d.funct7_to_cmd_.push (.replicate 128 .UNDEFINED) }
    else return d)
  let j := (← fetch d.opc_funct3_to_cmd_ opc_funct3).toNat
  if h : j < d.funct7_to_cmd_.size then
    let cmds ← store d.funct7_to_cmd_[j] funct7 (Cmd.ofNat i)
    return { d with funct7_to_cmd_ := d.funct7_to_cmd_.set j cmds }
  else throw .undefinedBehaviour

/-- One round of the loop that fills the command tables, for row `i`. -/
def addCmd (d : Decoder) (row : CmdDesc × ℕ) : Except Stop Decoder := do
  let (cmd_desc, i) := row
  let opcode := (getOpcodeDesc cmd_desc.opcode).opcode.toNat
  let opc_funct3 := cmd_desc.funct3.toNat <<< 5 ||| opcode
  if (← fetch d.opc_to_fmt_ opcode) = .R then
    d.addFunct7 i opc_funct3 cmd_desc.funct7.toNat
  else
    let cmds ← store d.opc_funct3_to_cmd_ opc_funct3 (BitVec.ofNat 8 i)
    return { d with opc_funct3_to_cmd_ := cmds }

def new : Except Stop Decoder := do
  let d ← opcode_desc.foldlM addOpcode empty
  cmd_desc.zipIdx.foldlM addCmd d

def opFunct3 (opcode funct3 : ℕ) : ℕ := (funct3 <<< 5 ||| opcode) % 256

def getCmd (d : Decoder) (opcode : ℕ) (funct3 : ℕ := 0) : Except Stop Command := do
  let cmd := Cmd.ofNat (← fetch d.opc_funct3_to_cmd_ (opFunct3 opcode funct3)).toNat
  if h : cmd = .UNDEFINED then
    throw (.simException "Can not find instruction by opcode, funct3")
  else return ⟨cmd, h⟩

def getCmd7 (d : Decoder) (opcode funct3 funct7 : ℕ) : Except Stop Command := do
  let j := (← fetch d.opc_funct3_to_cmd_ (opFunct3 opcode funct3)).toNat
  if hj : j < d.funct7_to_cmd_.size then
    let cmd ← fetch d.funct7_to_cmd_[j] funct7
    if h : cmd = .UNDEFINED then
      throw (.simException "Can not find instruction by opcode, funct3, funct7")
    else return ⟨cmd, h⟩
  else throw .undefinedBehaviour

/-- The shift commands of the `I` branch: SRLI and SRAI share one table entry and
are told apart by funct7. -/
def shiftI (cmd : Command) (imm : U32) : Except Stop (Command × U32) :=
  if cmd.val = .SLLI then
    if imm >>> 5 ≠ 0 then .error (.simException "SLLI: incorrect immediate")
    else .ok (cmd, imm)
  else if cmd.val = .SRLI ∨ cmd.val = .SRAI then
    let funct7 := imm >>> 5
    if funct7 = 0b0000000 then .ok (.SRLI, imm)
    else if funct7 = 0b0100000 then .ok (.SRAI, imm &&& (1#32 <<< 6 - 1))
    else .error (.simException "SRLI/SRAI: incorrect immediate")
  else .ok (cmd, imm)

/-- The `switch` that tells the six funct3 = 0 SYSTEM commands apart. -/
def systemCmd (imm : U32) : Except Stop Command :=
  if imm = 0x000 then .ok .ECALL
  else if imm = 0x001 then .ok .EBREAK
  else if imm = 0x002 then .ok .URET
  else if imm = 0x102 then .ok .SRET
  else if imm = 0x302 then .ok .MRET
  else if imm = 0x105 then .ok .WFI
  else .error (.simException "SYSTEM instruction: incorrect immediate")

/-- The `I` branch of `decode` between `getCmd` and `GenInst`. -/
def immI (cmd : Command) (fmt : IFormat) : Except Stop (Command × U32) := do
  let (cmd, imm) ← shiftI cmd (fmt.imm.setWidth 32)
  if cmd.val = .FENCE then
    if imm ≠ 0x0ff ∨ fmt.rs1 ≠ 0 ∨ fmt.rd ≠ 0 then
      throw (.simException "FENCE: incorrect imm/rs1/rd")
    else return (cmd, imm)
  else if Cmd.ECALL.ctorIdx ≤ cmd.val.ctorIdx ∧ cmd.val.ctorIdx ≤ Cmd.WFI.ctorIdx then
    if fmt.rs1 ≠ 0 ∨ fmt.rd ≠ 0 then
      throw (.simException "SYSTEM instruction: rs1, rd are not zero")
    else return (← systemCmd imm, imm)
  else
    -- read from the field again: the mask of the SRAI branch is lost here
    return (cmd, signExtend (fmt.imm.setWidth 32) 11)

def immS (fmt : SFormat) : U32 :=
  signExtend (fmt.imm2.setWidth 32 <<< 5 ||| fmt.imm1.setWidth 32) 11

def immB (fmt : SFormat) : U32 :=
  let imm1 := fmt.imm1.setWidth 32
  let imm2 := fmt.imm2.setWidth 32
  signExtend (imm1 >>> 1 ||| (imm2 &&& 0x3f#32) <<< 4 ||| (imm1 &&& 1#32) <<< 10 ||| (imm2 >>> 6) <<< 11) 11

def immU (fmt : UFormat) : U32 := fmt.imm.setWidth 32 <<< 12

def immJ (fmt : UFormat) : U32 :=
  let imm := fmt.imm.setWidth 32
  signExtend
    ((imm >>> 9 &&& 0x3ff#32) ||| (imm >>> 8 &&& 1#32) <<< 10 ||| (imm &&& 0xff#32) <<< 11 |||
      (imm >>> 19) <<< 19) 19

def decode (d : Decoder) (command : U32) : Except Stop Inst :=
  if command &&& 0b11 ≠ 0b11 then
    .error (.simException "Packed instructions are not supported!")
  else do
    let opcode := ((command &&& (1#32 <<< 7 - 1)) >>> 2).toNat
    match ← fetch d.opc_to_fmt_ opcode with
    | .UNDEFINED => throw (.simException "Opcode is not supported")
    | .R =>
      let fmt := RFormat.ofWord command
      let cmd ← d.getCmd7 opcode fmt.funct3.toNat fmt.funct7.toNat
      return genR cmd (toReg fmt.rd) (toReg fmt.rs1) (toReg fmt.rs2)
    | .I =>
      let fmt := IFormat.ofWord command
      let cmd ← d.getCmd opcode fmt.funct3.toNat
      let (cmd, imm) ← immI cmd fmt
      return genI cmd (toReg fmt.rd) (toReg fmt.rs1) imm
    | .S =>
      let fmt := SFormat.ofWord command
      let cmd ← d.getCmd opcode fmt.funct3.toNat
      return genS cmd (immS fmt) (toReg fmt.rs1) (toReg fmt.rs2)
    | .B =>
      let fmt := SFormat.ofWord command
      let cmd ← d.getCmd opcode fmt.funct3.toNat
      return genB cmd (immB fmt) (toReg fmt.rs1) (toReg fmt.rs2)
    | .U =>
      let fmt := UFormat.ofWord command
      let cmd ← d.getCmd opcode
      return genU cmd (toReg fmt.rd) (immU fmt)
    | .J =>
      let fmt := UFormat.ofWord command
      let cmd ← d.getCmd opcode
      return genJ cmd (toReg fmt.rd) (immJ fmt)

theorem new_isSome : new.toOption.isSome = true := by decide +kernel

def decoder_ : Decoder := new.toOption.get new_isSome

theorem new_eq : new = .ok decoder_ := by
  have h := Option.some_get new_isSome
  change some decoder_ = _ at h
  cases hn : new with
  | ok d => rw [hn] at h; exact congrArg Except.ok (Option.some.inj h).symm
  | error e => rw [hn] at h; cases h

end Decoder

end RiscvSim
