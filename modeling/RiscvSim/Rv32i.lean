import RiscvSim.Encoding
import RiscvSim.State

namespace RiscvSim.Rv32i

open Isa Ir

structure Machine where
  regs : Regs
  pc : U32
  mem : ℕ → U8

inductive AluOp
  | add | sub | sll | slt | sltu | xor | srl | sra | or | and
  deriving DecidableEq

inductive Cond
  | eq | ne | lt | ge | ltu | geu
  deriving DecidableEq

/-- The width of a memory access, in bytes. -/
inductive Width
  | byte | half | word
  deriving DecidableEq

def Width.bytes : Width → ℕ
  | .byte => 1
  | .half => 2
  | .word => 4

/-- Immediates are kept as the manual draws them, branch and jump offsets in units of two. -/
inductive Instr
  | lui (rd : Reg) (imm : BitVec 20)
  | auipc (rd : Reg) (imm : BitVec 20)
  | jal (rd : Reg) (offset : BitVec 20)
  | jalr (rd rs1 : Reg) (imm : BitVec 12)
  | branch (c : Cond) (rs1 rs2 : Reg) (offset : BitVec 12)
  | load (w : Width) (signed : Bool) (rd rs1 : Reg) (imm : BitVec 12)
  | store (w : Width) (rs1 rs2 : Reg) (imm : BitVec 12)
  | opImm (op : AluOp) (rd rs1 : Reg) (imm : BitVec 12)
  | op (op : AluOp) (rd rs1 rs2 : Reg)
  deriving DecidableEq

def rd (w : U32) : Reg := toReg (w.extractLsb' 7 5)

def rs1 (w : U32) : Reg := toReg (w.extractLsb' 15 5)

def rs2 (w : U32) : Reg := toReg (w.extractLsb' 20 5)

def decodeBranch (funct3 : ℕ) : Option Cond :=
  match funct3 with
  | 0b000 => some .eq
  | 0b001 => some .ne
  | 0b100 => some .lt
  | 0b101 => some .ge
  | 0b110 => some .ltu
  | 0b111 => some .geu
  | _ => none

def decodeLoad (funct3 : ℕ) : Option (Width × Bool) :=
  match funct3 with
  | 0b000 => some (.byte, true)
  | 0b001 => some (.half, true)
  | 0b010 => some (.word, true)
  | 0b100 => some (.byte, false)
  | 0b101 => some (.half, false)
  | _ => none

def decodeStore (funct3 : ℕ) : Option Width :=
  match funct3 with
  | 0b000 => some .byte
  | 0b001 => some .half
  | 0b010 => some .word
  | _ => none

def decodeOpImm (funct3 funct7 : ℕ) : Option AluOp :=
  match funct3 with
  | 0b000 => some .add
  | 0b010 => some .slt
  | 0b011 => some .sltu
  | 0b100 => some .xor
  | 0b110 => some .or
  | 0b111 => some .and
  | 0b001 => if funct7 = 0 then some .sll else none
  | 0b101 => if funct7 = 0 then some .srl else if funct7 = 0b0100000 then some .sra else none
  | _ => none

def decodeOp (funct3 funct7 : ℕ) : Option AluOp :=
  match funct7, funct3 with
  | 0, 0b000 => some .add
  | 0b0100000, 0b000 => some .sub
  | 0, 0b001 => some .sll
  | 0, 0b010 => some .slt
  | 0, 0b011 => some .sltu
  | 0, 0b100 => some .xor
  | 0, 0b101 => some .srl
  | 0b0100000, 0b101 => some .sra
  | 0, 0b110 => some .or
  | 0, 0b111 => some .and
  | _, _ => none

/-- The instruction a word encodes, by major opcode. -/
def decode (w : U32) : Option Instr :=
  let funct3 := (w.extractLsb' 12 3).toNat
  let funct7 := (w.extractLsb' 25 7).toNat
  match (w.extractLsb' 0 7).toNat with
  | 0b0110111 => some (.lui (rd w) (fieldU w))
  | 0b0010111 => some (.auipc (rd w) (fieldU w))
  | 0b1101111 => some (.jal (rd w) (fieldJ w))
  | 0b1100111 => if funct3 = 0 then some (.jalr (rd w) (rs1 w) (fieldI w)) else none
  | 0b1100011 => (decodeBranch funct3).map fun c ↦ .branch c (rs1 w) (rs2 w) (fieldB w)
  | 0b0000011 => (decodeLoad funct3).map fun l ↦ .load l.1 l.2 (rd w) (rs1 w) (fieldI w)
  | 0b0100011 => (decodeStore funct3).map fun s ↦ .store s (rs1 w) (rs2 w) (fieldS w)
  | 0b0010011 => (decodeOpImm funct3 funct7).map fun op ↦ .opImm op (rd w) (rs1 w) (fieldI w)
  | 0b0110011 => (decodeOp funct3 funct7).map fun op ↦ .op op (rd w) (rs1 w) (rs2 w)
  | _ => none

def alu (op : AluOp) (a b : U32) : U32 :=
  match op with
  | .add => a + b
  | .sub => a - b
  | .sll => a <<< (b.toNat % 32)
  | .slt => if a.toInt < b.toInt then 1 else 0
  | .sltu => if a.toNat < b.toNat then 1 else 0
  | .xor => a ^^^ b
  | .srl => a >>> (b.toNat % 32)
  | .sra => a.sshiftRight (b.toNat % 32)
  | .or => a ||| b
  | .and => a &&& b

def Cond.holds (c : Cond) (a b : U32) : Prop :=
  match c with
  | .eq => a = b
  | .ne => a ≠ b
  | .lt => a.toInt < b.toInt
  | .ge => b.toInt ≤ a.toInt
  | .ltu => a.toNat < b.toNat
  | .geu => b.toNat ≤ a.toNat

instance (c : Cond) (a b : U32) : Decidable (c.holds a b) := by
  cases c <;> (unfold Cond.holds; infer_instance)

namespace Machine

def setReg (m : Machine) (rd : Reg) (v : U32) : Machine := { m with regs := m.regs.set rd v }

def goto (m : Machine) (pc : U32) : Machine := { m with pc := pc }

def next (m : Machine) : Machine := m.goto (m.pc + 4)

end Machine

def bytes {n : ℕ} (offset : BitVec n) : U32 := (offset ++ 0#1).signExtend 32

/-- The address of a load or store, how many bytes it touches, and whether it writes them. -/
def access (m : Machine) : Instr → Option (U32 × ℕ × Bool)
  | .load w _ _ rs1 imm => some (m.regs.get rs1 + imm.signExtend 32, w.bytes, false)
  | .store w rs1 _ imm => some (m.regs.get rs1 + imm.signExtend 32, w.bytes, true)
  | _ => none

def exec (m : Machine) : Instr → Machine
  | .lui rd imm => (m.setReg rd (imm ++ 0#12)).next
  | .auipc rd imm => (m.setReg rd (m.pc + (imm ++ 0#12))).next
  | .jal rd offset => (m.setReg rd (m.pc + 4)).goto (m.pc + bytes offset)
  | .jalr rd rs1 imm =>
    (m.setReg rd (m.pc + 4)).goto ((m.regs.get rs1 + imm.signExtend 32) &&& ~~~1#32)
  | .branch c rs1 rs2 offset =>
    if c.holds (m.regs.get rs1) (m.regs.get rs2) then m.goto (m.pc + bytes offset) else m.next
  | .load w signed rd rs1 imm =>
    let v := Bytes.read m.mem (m.regs.get rs1 + imm.signExtend 32).toNat w.bytes
    (m.setReg rd (if signed then v.signExtend 32 else v.setWidth 32)).next
  | .store w rs1 rs2 imm =>
    let v := (m.regs.get rs2).setWidth (8 * w.bytes)
    { m with mem := Bytes.write m.mem (m.regs.get rs1 + imm.signExtend 32).toNat v }.next
  | .opImm op rd rs1 imm => (m.setReg rd (alu op (m.regs.get rs1) (imm.signExtend 32))).next
  | .op op rd rs1 rs2 => (m.setReg rd (alu op (m.regs.get rs1) (m.regs.get rs2))).next

def current (m : Machine) : Option Instr := decode (Bytes.read m.mem m.pc.toNat 4)

def step (m : Machine) : Option Machine := (current m).map (exec m)

def steps : ℕ → Machine → Option Machine
  | 0, m => some m
  | n + 1, m => (step m).bind (steps n)

end RiscvSim.Rv32i
