import RiscvSim.DecoderLanguage
import RiscvSim.Library.BitFields

namespace RiscvSim

open Isa Ir BitFields

namespace Isa

/-- The immediate fields of a word, put together as the ISA manual draws them;
B and J offsets count units of two bytes. -/
def fieldI (w : U32) : BitVec 12 := w.extractLsb' 20 12

def fieldS (w : U32) : BitVec 12 := w.extractLsb' 25 7 ++ w.extractLsb' 7 5

def fieldB (w : U32) : BitVec 12 :=
  w.extractLsb' 31 1 ++ (w.extractLsb' 7 1 ++ (w.extractLsb' 25 6 ++ w.extractLsb' 8 4))

def fieldU (w : U32) : BitVec 20 := w.extractLsb' 12 20

def fieldJ (w : U32) : BitVec 20 :=
  w.extractLsb' 31 1 ++ (w.extractLsb' 12 8 ++ (w.extractLsb' 20 1 ++ w.extractLsb' 21 10))

/-- The operands of an assembler line; B and J immediates are byte offsets, the U
immediate is the 20-bit field. -/
structure Operands where
  rd : Reg := 0
  rs1 : Reg := 0
  rs2 : Reg := 0
  imm : ℤ := 0
  deriving DecidableEq

def ofReg (r : Reg) : BitVec 5 := BitVec.ofFin r

/-- Opcode, funct3 and funct7 as the ISA manual's opcode tables list them, zero where the format has none. -/
def manual : Cmd → BitVec 5 × BitVec 3 × BitVec 7
  | .LUI => (0b01101, 0, 0)
  | .AUIPC => (0b00101, 0, 0)
  | .JAL => (0b11011, 0, 0)
  | .JALR => (0b11001, 0b000, 0)
  | .BEQ => (0b11000, 0b000, 0)
  | .BNE => (0b11000, 0b001, 0)
  | .BLT => (0b11000, 0b100, 0)
  | .BGE => (0b11000, 0b101, 0)
  | .BLTU => (0b11000, 0b110, 0)
  | .BGEU => (0b11000, 0b111, 0)
  | .LB => (0b00000, 0b000, 0)
  | .LH => (0b00000, 0b001, 0)
  | .LW => (0b00000, 0b010, 0)
  | .LBU => (0b00000, 0b100, 0)
  | .LHU => (0b00000, 0b101, 0)
  | .SB => (0b01000, 0b000, 0)
  | .SH => (0b01000, 0b001, 0)
  | .SW => (0b01000, 0b010, 0)
  | .ADDI => (0b00100, 0b000, 0)
  | .SLTI => (0b00100, 0b010, 0)
  | .SLTIU => (0b00100, 0b011, 0)
  | .XORI => (0b00100, 0b100, 0)
  | .ORI => (0b00100, 0b110, 0)
  | .ANDI => (0b00100, 0b111, 0)
  | .SLLI => (0b00100, 0b001, 0)
  | .SRLI | .SRAI => (0b00100, 0b101, 0)
  | .ADD => (0b01100, 0b000, 0b0000000)
  | .SUB => (0b01100, 0b000, 0b0100000)
  | .SLL => (0b01100, 0b001, 0b0000000)
  | .SLT => (0b01100, 0b010, 0b0000000)
  | .SLTU => (0b01100, 0b011, 0b0000000)
  | .XOR => (0b01100, 0b100, 0b0000000)
  | .SRL => (0b01100, 0b101, 0b0000000)
  | .SRA => (0b01100, 0b101, 0b0100000)
  | .OR => (0b01100, 0b110, 0b0000000)
  | .AND => (0b01100, 0b111, 0b0000000)
  | .ECALL | .EBREAK | .URET | .SRET | .MRET | .WFI => (0b11100, 0b000, 0)
  | .FENCE => (0b00011, 0b000, 0)
  | .CSRRW => (0b11100, 0b001, 0)
  | .CSRRS => (0b11100, 0b010, 0)
  | .CSRRC => (0b11100, 0b011, 0)
  | .CSRRWI => (0b11100, 0b101, 0)
  | .CSRRSI => (0b11100, 0b110, 0)
  | .CSRRCI => (0b11100, 0b111, 0)
  | .MUL => (0b01100, 0b000, 0b0000001)
  | .MULH => (0b01100, 0b001, 0b0000001)
  | .MULHSU => (0b01100, 0b010, 0b0000001)
  | .MULHU => (0b01100, 0b011, 0b0000001)
  | .DIV => (0b01100, 0b100, 0b0000001)
  | .DIVU => (0b01100, 0b101, 0b0000001)
  | .REM => (0b01100, 0b110, 0b0000001)
  | .REMU => (0b01100, 0b111, 0b0000001)
  | .UNDEFINED => (0, 0, 0)

theorem rows_manual (c : Command) : (opcodeOf c, funct3Of c, funct7Of c) = manual c.val := by
  obtain ⟨c, hc⟩ := c
  cases c with
  | UNDEFINED => exact absurd rfl hc
  | _ => rfl

def encode (c : Command) (o : Operands) : U32 :=
  let low := ofReg o.rd ++ (opcodeOf c ++ 3#2)
  let regs := ofReg o.rs1 ++ (funct3Of c ++ low)
  match formatOf c with
  | .R =>
    let word := funct7Of c ++ (ofReg o.rs2 ++ regs)
    word
  | .I =>
    let word := BitVec.ofInt 12 o.imm ++ regs
    word
  | .S =>
    let imm := BitVec.ofInt 12 o.imm
    let word := imm.extractLsb' 5 7 ++ (ofReg o.rs2 ++ (ofReg o.rs1 ++ (funct3Of c ++
      (imm.extractLsb' 0 5 ++ (opcodeOf c ++ 3#2)))))
    word
  | .B =>
    let off := BitVec.ofInt 13 o.imm
    let word := off.extractLsb' 12 1 ++ (off.extractLsb' 5 6 ++ (ofReg o.rs2 ++ (ofReg o.rs1 ++
      (funct3Of c ++ (off.extractLsb' 1 4 ++ (off.extractLsb' 11 1 ++ (opcodeOf c ++ 3#2)))))))
    word
  | .U =>
    let word := BitVec.ofInt 20 o.imm ++ low
    word
  | .J | .UNDEFINED =>
    let off := BitVec.ofInt 21 o.imm
    let word := off.extractLsb' 20 1 ++ (off.extractLsb' 1 10 ++ (off.extractLsb' 11 1 ++
      (off.extractLsb' 12 8 ++ low)))
    word

/-- The immediate of FENCE and of the funct3 = 0 SYSTEM commands. -/
def onlyImm (c : Command) : Option ℤ :=
  match c.val with
  | .FENCE => some 0x0ff
  | .ECALL => some 0x000
  | .EBREAK => some 0x001
  | .URET => some 0x002
  | .SRET => some 0x102
  | .MRET => some 0x302
  | .WFI => some 0x105
  | _ => none

/-- The operands of an I-format command; some commands have one combination only. -/
def AdmitsI (c : Command) (o : Operands) : Prop :=
  match onlyImm c with
  | some k => o.rd = 0 ∧ o.rs1 = 0 ∧ o.imm = k
  | none =>
    if c.val = .SLLI ∨ c.val = .SRLI then 0 ≤ o.imm ∧ o.imm < 32
    else -2 ^ 11 ≤ o.imm ∧ o.imm < 2 ^ 11

/-- The immediates that fit a command's format. -/
def Admits (c : Command) (o : Operands) : Prop :=
  match formatOf c with
  | .R => True
  | .I => AdmitsI c o
  | .S => -2 ^ 11 ≤ o.imm ∧ o.imm < 2 ^ 11
  | .B => o.imm % 2 = 0 ∧ -4096 ≤ o.imm ∧ o.imm ≤ 4094
  | .U => 0 ≤ o.imm ∧ o.imm < 2 ^ 20
  | .J | .UNDEFINED => o.imm % 2 = 0 ∧ -2 ^ 20 ≤ o.imm ∧ o.imm ≤ 2 ^ 20 - 2

/-- The instruction the operands stand for: the register fields of the format, and
the immediate as the interpreter uses it. -/
def instOf (c : Command) (o : Operands) : Inst :=
  match formatOf c with
  | .R => genR c o.rd o.rs1 o.rs2
  | .I => genI c o.rd o.rs1 (BitVec.ofInt 32 o.imm)
  | .S => genS c (BitVec.ofInt 32 o.imm) o.rs1 o.rs2
  | .B => genB c (BitVec.ofInt 32 (o.imm / 2)) o.rs1 o.rs2
  | .U => genU c o.rd (BitVec.ofInt 32 o.imm <<< 12)
  | .J | .UNDEFINED => genJ c o.rd (BitVec.ofInt 32 (o.imm / 2))

def operandsOf (inst : Inst) : Operands where
  rd := inst.rd_
  rs1 := inst.rs1_
  rs2 := inst.rs2_
  imm := match inst.getCmdFormat with
    | .R => 0
    | .I | .S => inst.imm_.toInt
    | .B | .J | .UNDEFINED => 2 * inst.imm_.toInt
    | .U => (inst.imm_ >>> 12).toNat

end Isa

namespace Decoder

theorem signExtend_eq {n : ℕ} (h : n < 32) (x : BitVec (n + 1)) :
    signExtend (x.setWidth 32) n = x.signExtend 32 := fill_eq_signExtend h x

theorem immS_eq (w : U32) : immS (SFormat.ofWord w) = (fieldS w).signExtend 32 := by
  unfold immS
  rw [BitVec.or_comm, setWidth_or_shiftLeft (by decide)]
  exact signExtend_eq (by decide) _

theorem immB_eq (w : U32) : immB (SFormat.ofWord w) = (fieldB w).signExtend 32 := by
  have h6 := setWidth_and_mask (show 7 ≤ 32 by decide) 6 (by decide) (w.extractLsb' 25 7)
  have h1 := setWidth_and_mask (show 5 ≤ 32 by decide) 1 (by decide) (w.extractLsb' 7 5)
  simp only [Nat.reducePow, Nat.reduceSub] at h6 h1
  simp only [immB, SFormat.ofWord]
  rw [setWidth_ushiftRight (by decide) 1 4 rfl, setWidth_ushiftRight (by decide) 6 1 rfl, h6, h1,
    setWidth_or_shiftLeft (by decide), setWidth_or_shiftLeft (by decide),
    setWidth_or_shiftLeft (by decide), extractLsb'_extractLsb' _ (by decide),
    extractLsb'_extractLsb' _ (by decide), extractLsb'_extractLsb' _ (by decide),
    extractLsb'_extractLsb' _ (by decide)]
  exact signExtend_eq (by decide) _

theorem immJ_eq (w : U32) : immJ (UFormat.ofWord w) = (fieldJ w).signExtend 32 := by
  let imm := w.extractLsb' 12 20
  have h10 := setWidth_and_mask (show 11 ≤ 32 by decide) 10 (by decide) (imm.extractLsb' 9 11)
  have h1 := setWidth_and_mask (show 12 ≤ 32 by decide) 1 (by decide) (imm.extractLsb' 8 12)
  have h8 := setWidth_and_mask (show 20 ≤ 32 by decide) 8 (by decide) imm
  simp only [Nat.reducePow, Nat.reduceSub] at h10 h1 h8
  simp only [immJ, UFormat.ofWord]
  rw [setWidth_ushiftRight (by decide) 9 11 rfl, setWidth_ushiftRight (by decide) 8 12 rfl,
    setWidth_ushiftRight (by decide) 19 1 rfl, h10, h1, h8, setWidth_or_shiftLeft (by decide),
    setWidth_or_shiftLeft (by decide), setWidth_or_shiftLeft (by decide)]
  rw [extractLsb'_extractLsb' w (by decide), extractLsb'_extractLsb' w (by decide),
    extractLsb'_extractLsb' w (by decide), extractLsb'_extractLsb' w (by decide),
    extractLsb'_extractLsb' w (by decide), extractLsb'_extractLsb' w (by decide)]
  exact signExtend_eq (by decide) _

theorem encode_opcode (c : Command) (o : Operands) :
    (encode c o).extractLsb' 0 2 = 3 ∧ (encode c o).extractLsb' 2 5 = opcodeOf c := by
  unfold encode
  constructor <;> split <;>
    simp (disch := decide) only [BitVec.extractLsb'_append_eq_of_add_le,
      BitVec.extractLsb'_append_eq_of_le, BitVec.extractLsb'_eq_self, Nat.reduceSub,
      BitVec.ofNat_eq_ofNat]

theorem encode_funct3 (c : Command) (o : Operands) (hU : formatOf c ≠ .U) (hJ : formatOf c ≠ .J) :
    (encode c o).extractLsb' 12 3 = funct3Of c := by
  unfold encode
  split
  case h_5 h => exact absurd h hU
  case h_6 h => exact absurd h hJ
  case h_7 h => exact absurd h (formatOf_ne_UNDEFINED c)
  all_goals
    simp (disch := decide) only [BitVec.extractLsb'_append_eq_of_add_le,
      BitVec.extractLsb'_append_eq_of_le, BitVec.extractLsb'_eq_self, Nat.sub_add_eq, Nat.reduceSub]

theorem encode_rd (c : Command) (o : Operands) (hS : formatOf c ≠ .S) (hB : formatOf c ≠ .B) :
    (encode c o).extractLsb' 7 5 = ofReg o.rd := by
  unfold encode
  split
  case h_3 h => exact absurd h hS
  case h_4 h => exact absurd h hB
  all_goals
    simp (disch := decide) only [BitVec.extractLsb'_append_eq_of_add_le,
      BitVec.extractLsb'_append_eq_of_le, BitVec.extractLsb'_eq_self, Nat.sub_add_eq, Nat.reduceSub]

theorem encode_rs1 (c : Command) (o : Operands) (hU : formatOf c ≠ .U) (hJ : formatOf c ≠ .J) :
    (encode c o).extractLsb' 15 5 = ofReg o.rs1 := by
  unfold encode
  split
  case h_5 h => exact absurd h hU
  case h_6 h => exact absurd h hJ
  case h_7 h => exact absurd h (formatOf_ne_UNDEFINED c)
  all_goals
    simp (disch := decide) only [BitVec.extractLsb'_append_eq_of_add_le,
      BitVec.extractLsb'_append_eq_of_le, BitVec.extractLsb'_eq_self, Nat.sub_add_eq, Nat.reduceSub]

theorem encode_R {c : Command} (h : formatOf c = .R) (o : Operands) :
    (encode c o).extractLsb' 20 5 = ofReg o.rs2 ∧ (encode c o).extractLsb' 25 7 = funct7Of c := by
  simp (disch := decide) only [encode, h, BitVec.extractLsb'_append_eq_of_add_le,
    BitVec.extractLsb'_append_eq_of_le, BitVec.extractLsb'_eq_self, Nat.sub_add_eq, Nat.reduceSub,
    and_self]

theorem encode_I {c : Command} (h : formatOf c = .I) (o : Operands) :
    fieldI (encode c o) = BitVec.ofInt 12 o.imm := by
  simp (disch := decide) only [fieldI, encode, h, BitVec.extractLsb'_append_eq_of_le,
    BitVec.extractLsb'_eq_self, Nat.sub_add_eq, Nat.reduceSub]

theorem encode_S {c : Command} (h : formatOf c = .S) (o : Operands) :
    (encode c o).extractLsb' 20 5 = ofReg o.rs2 ∧ fieldS (encode c o) = BitVec.ofInt 12 o.imm := by
  simp (disch := decide) only [fieldS, encode, h, BitVec.extractLsb'_append_eq_of_add_le,
    BitVec.extractLsb'_append_eq_of_le, BitVec.extractLsb'_eq_self, Nat.sub_add_eq, Nat.reduceSub,
    true_and]
  exact BitVec.extractLsb'_append_extractLsb'

theorem encode_B {c : Command} (h : formatOf c = .B) (o : Operands) :
    (encode c o).extractLsb' 20 5 = ofReg o.rs2 ∧
      fieldB (encode c o) = (BitVec.ofInt 13 o.imm).extractLsb' 1 12 := by
  simp (disch := decide) only [fieldB, encode, h, BitVec.extractLsb'_append_eq_of_add_le,
    BitVec.extractLsb'_append_eq_of_le, BitVec.extractLsb'_eq_self, Nat.sub_add_eq, Nat.reduceSub,
    true_and]
  rw [BitVec.extractLsb'_append_extractLsb'_eq_extractLsb' (by decide),
    BitVec.extractLsb'_append_extractLsb'_eq_extractLsb' (by decide),
    BitVec.extractLsb'_append_extractLsb'_eq_extractLsb' (by decide)]

theorem encode_U {c : Command} (h : formatOf c = .U) (o : Operands) :
    fieldU (encode c o) = BitVec.ofInt 20 o.imm := by
  simp (disch := decide) only [fieldU, encode, h, BitVec.extractLsb'_append_eq_of_le,
    BitVec.extractLsb'_eq_self, Nat.sub_add_eq, Nat.reduceSub]

theorem encode_J {c : Command} (h : formatOf c = .J) (o : Operands) :
    fieldJ (encode c o) = (BitVec.ofInt 21 o.imm).extractLsb' 1 20 := by
  simp (disch := decide) only [fieldJ, encode, h, BitVec.extractLsb'_append_eq_of_add_le,
    BitVec.extractLsb'_append_eq_of_le, BitVec.extractLsb'_eq_self, Nat.sub_add_eq, Nat.reduceSub]
  rw [BitVec.extractLsb'_append_extractLsb'_eq_extractLsb' (by decide),
    BitVec.extractLsb'_append_extractLsb'_eq_extractLsb' (by decide),
    BitVec.extractLsb'_append_extractLsb'_eq_extractLsb' (by decide)]

theorem signExtend_ofInt {n : ℕ} (hn : n ≤ 32) {i : ℤ} (h₁ : -2 ^ (n - 1) ≤ i)
    (h₂ : i < 2 ^ (n - 1)) (h0 : 0 < n) :
    (BitVec.ofInt n i).signExtend 32 = BitVec.ofInt 32 i := by
  apply BitVec.eq_of_toInt_eq
  have hp : (2 : ℤ) ^ (n - 1) ≤ 2 ^ (32 - 1) := by
    exact_mod_cast Nat.pow_le_pow_right (by decide) (show n - 1 ≤ 31 by omega)
  rw [BitVec.toInt_signExtend_of_le hn, BitVec.toInt_ofInt_eq_self h0 h₁ h₂,
    BitVec.toInt_ofInt_eq_self (by decide) (by omega) (by omega)]

/-- An even offset, kept without its lowest bit. -/
theorem extract_ofInt {n : ℕ} {i : ℤ} (h : i % 2 = 0) :
    (BitVec.ofInt (n + 1) i).extractLsb' 1 n = BitVec.ofInt n (i / 2) := by
  apply BitVec.eq_of_toNat_eq
  obtain ⟨k, rfl⟩ : ∃ k, i = 2 * k := ⟨i / 2, by omega⟩
  have hk : (2 * k) / 2 = k := by omega
  have hm : (2 * k) % (2 ^ (n + 1) : ℕ) = 2 * (k % (2 ^ n : ℕ)) := by
    rw [Nat.pow_succ', Nat.cast_mul]
    exact Int.mul_emod_mul_of_pos k _ (by decide)
  have hn := Nat.two_pow_pos n
  have h0 : 0 ≤ k % (2 ^ n : ℕ) := Int.emod_nonneg _ (by omega)
  have hlt : k % (2 ^ n : ℕ) < (2 ^ n : ℕ) := Int.emod_lt_of_pos _ (by omega)
  rw [hk, BitVec.extractLsb'_toNat, BitVec.toNat_ofInt, BitVec.toNat_ofInt, hm,
    Nat.shiftRight_eq_div_pow]
  generalize k % (2 ^ n : ℕ) = m at h0 hlt ⊢
  obtain ⟨m, rfl⟩ := Int.eq_ofNat_of_zero_le h0
  have hlt' : m < 2 ^ n := by exact_mod_cast hlt
  have h2 : (2 * (m : ℤ)).toNat / 2 ^ 1 = m := by omega
  rw [h2, Nat.mod_eq_of_lt hlt']
  rfl

end Decoder

end RiscvSim
