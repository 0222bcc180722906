import RiscvSim.DecoderTables
import RiscvSim.Library.Results

set_option maxRecDepth 4000

namespace RiscvSim

open Isa Ir

namespace Isa

def opcodeOf (c : Command) : BitVec 5 := (getOpcodeDesc (getCmdDesc c).opcode).opcode.setWidth 5

def formatOf (c : Command) : CmdFormat := (getOpcodeDesc (getCmdDesc c).opcode).format

def funct3Of (c : Command) : BitVec 3 := (getCmdDesc c).funct3.setWidth 3

def funct7Of (c : Command) : BitVec 7 := (getCmdDesc c).funct7.setWidth 7

/-- What a row asks of the word beyond its opcode, funct3 and funct7. -/
def Special (c : Command) (w : U32) : Prop :=
  let zeros := w.extractLsb' 7 5 = 0 ∧ w.extractLsb' 15 5 = 0
  let imm := w.extractLsb' 20 12
  match c.val with
  | .SLLI | .SRLI => w.extractLsb' 25 7 = 0
  | .SRAI => w.extractLsb' 25 7 = 0x20
  | .FENCE => zeros ∧ imm = 0x0ff
  | .ECALL => zeros ∧ imm = 0
  | .EBREAK => zeros ∧ imm = 1
  | .URET => zeros ∧ imm = 2
  | .SRET => zeros ∧ imm = 0x102
  | .MRET => zeros ∧ imm = 0x302
  | .WFI => zeros ∧ imm = 0x105
  | _ => True

/-- The word is in the instruction language, as row `c` of `cmd_desc`. -/
structure Selects (w : U32) (c : Command) : Prop where
  sz : w.extractLsb' 0 2 = 3
  opcode : w.extractLsb' 2 5 = opcodeOf c
  funct3 : formatOf c ≠ .U → formatOf c ≠ .J → w.extractLsb' 12 3 = funct3Of c
  funct7 : formatOf c = .R → w.extractLsb' 25 7 = funct7Of c
  special : Special c w

/-- FENCE and the funct3 = 0 SYSTEM commands keep the 12 bits as they are. -/
def rawImm (c : Command) : Bool :=
  match c.val with
  | .FENCE | .ECALL | .EBREAK | .URET | .SRET | .MRET | .WFI => true
  | _ => false

def immOfI (c : Command) (fmt : IFormat) : U32 :=
  if rawImm c then fmt.imm.setWidth 32 else signExtend (fmt.imm.setWidth 32) 11

/-- The instruction whose fields are read from the word under format `f`. -/
def readAs (f : CmdFormat) (c : Command) (w : U32) : Inst :=
  let r := RFormat.ofWord w
  match f with
  | .R => genR c (toReg r.rd) (toReg r.rs1) (toReg r.rs2)
  | .I => genI c (toReg r.rd) (toReg r.rs1) (immOfI c (IFormat.ofWord w))
  | .S => genS c (Decoder.immS (SFormat.ofWord w)) (toReg r.rs1) (toReg r.rs2)
  | .B => genB c (Decoder.immB (SFormat.ofWord w)) (toReg r.rs1) (toReg r.rs2)
  | .U => genU c (toReg r.rd) (Decoder.immU (UFormat.ofWord w))
  | .J | .UNDEFINED => genJ c (toReg r.rd) (Decoder.immJ (UFormat.ofWord w))

theorem readAs_cmd (f : CmdFormat) (c : Command) (w : U32) : (readAs f c w).cmd_ = c := by
  cases f <;> rfl

end Isa

namespace Decoder

/-- A row fact that computes is checked row by row. -/
theorem forall_command {p : Command → Prop}
    (h : ∀ i < 58, ∀ hi : Cmd.ofNat i ≠ .UNDEFINED, p ⟨Cmd.ofNat i, hi⟩) (c : Command) : p c := by
  have hi := Command.ctorIdx_lt c
  obtain ⟨c, hc⟩ := c
  have e : Cmd.ofNat c.ctorIdx = c := by cases c <;> rfl
  have hp := h c.ctorIdx hi (e.symm ▸ hc)
  simpa only [e] using hp

/-- The row whose number the tables hold for `c`: later rows overwrite earlier ones. -/
def tableRow (c : Command) : Command :=
  match c.val with
  | .SRLI => .SRAI
  | .ECALL | .EBREAK | .URET | .SRET | .MRET => .WFI
  | _ => c

/-- What the lookup tables and the two range tests of `decode` hold for a row,
checked row by row. -/
theorem row_facts (c : Command) :
    (fmtOf (opcodeOf c).toNat = formatOf c ∧ formatOf c ≠ .UNDEFINED) ∧
    (formatOf c ≠ .R → Cmd.ofNat (cmdByte ((funct3Of c).toNat * 32 + (opcodeOf c).toNat)).toNat =
      (tableRow c).val) ∧
    (formatOf c = .R → funct7Cmd (funct3Of c).toNat (funct7Of c).toNat = c.val) ∧
    (formatOf c = .U ∨ formatOf c = .J → funct3Of c = 0) ∧
    (formatOf c ≠ .I → tableRow c = c ∧
      c.val ≠ .SLLI ∧ c.val ≠ .SRLI ∧ c.val ≠ .SRAI ∧ rawImm c = false) ∧
    (formatOf (tableRow c) = formatOf c ∧ opcodeOf (tableRow c) = opcodeOf c ∧
      funct3Of (tableRow c) = funct3Of c) ∧
    ((Cmd.ECALL.ctorIdx ≤ c.val.ctorIdx ∧ c.val.ctorIdx ≤ Cmd.WFI.ctorIdx) ↔
      rawImm c ∧ c.val ≠ .FENCE) := by
  revert c
  refine forall_command ?_
  set_option synthInstance.maxSize 1000 in
  decide +kernel

theorem fmtOf_opcodeOf (c : Command) : fmtOf (opcodeOf c).toNat = formatOf c := (row_facts c).1.1

theorem formatOf_ne_UNDEFINED (c : Command) : formatOf c ≠ .UNDEFINED := (row_facts c).1.2

theorem cmdByte_opcodeOf (c : Command) (h : formatOf c ≠ .R) :
    Cmd.ofNat (cmdByte ((funct3Of c).toNat * 32 + (opcodeOf c).toNat)).toNat = (tableRow c).val :=
  (row_facts c).2.1 h

theorem funct7Cmd_funct7Of (c : Command) (h : formatOf c = .R) :
    funct7Cmd (funct3Of c).toNat (funct7Of c).toNat = c.val := (row_facts c).2.2.1 h

theorem funct3Of_upper (c : Command) (h : formatOf c = .U ∨ formatOf c = .J) : funct3Of c = 0 :=
  (row_facts c).2.2.2.1 h

theorem tableRow_of_format (c : Command) (h : formatOf c ≠ .I) : tableRow c = c :=
  ((row_facts c).2.2.2.2.1 h).1

theorem plain_of_format (c : Command) (h : formatOf c ≠ .I) :
    c.val ≠ .SLLI ∧ c.val ≠ .SRLI ∧ c.val ≠ .SRAI ∧ rawImm c = false :=
  ((row_facts c).2.2.2.2.1 h).2

theorem formatOf_tableRow (c : Command) : formatOf (tableRow c) = formatOf c ∧
    opcodeOf (tableRow c) = opcodeOf c ∧ funct3Of (tableRow c) = funct3Of c :=
  (row_facts c).2.2.2.2.2.1

/-- The two range tests of `decode` single out the funct3 = 0 SYSTEM commands. -/
theorem system_range (c : Command) :
    (Cmd.ECALL.ctorIdx ≤ c.val.ctorIdx ∧ c.val.ctorIdx ≤ Cmd.WFI.ctorIdx) ↔
      rawImm c ∧ c.val ≠ .FENCE :=
  (row_facts c).2.2.2.2.2.2

theorem row_of_cmdByte : ∀ op < 32, ∀ f3 < 8, fmtOf op ≠ .R →
    (hc : Cmd.ofNat (cmdByte (f3 * 32 + op)).toNat ≠ .UNDEFINED) →
    opcodeOf ⟨_, hc⟩ = BitVec.ofNat 5 op ∧ funct3Of ⟨_, hc⟩ = BitVec.ofNat 3 f3 ∧
      tableRow ⟨_, hc⟩ = ⟨_, hc⟩ := by
  decide +kernel

theorem opcode_of_R : ∀ op < 32, fmtOf op = .R → op = 12 := by decide

theorem cmdByte_R : ∀ f3 < 8, (cmdByte (f3 * 32 + 12)).toNat = f3 := by decide

theorem mem_of_funct7Cmd {f3 f7 : ℕ} (h : funct7Cmd f3 f7 ≠ .UNDEFINED) :
    (f7, funct7Cmd f3 f7) ∈ funct7Rows f3 := by
  unfold funct7Cmd at h ⊢
  cases hf : (funct7Rows f3).find? fun r ↦ r.1 = f7 with
  | none => simp [hf] at h
  | some r =>
    have hr := List.find?_some hf
    have hm := List.mem_of_find?_eq_some hf
    simp only [decide_eq_true_eq] at hr
    subst hr
    simpa using hm

theorem row_of_funct7Rows : ∀ f3 < 8, ∀ r ∈ funct7Rows f3, (hc : r.2 ≠ .UNDEFINED) →
    opcodeOf ⟨r.2, hc⟩ = 12 ∧ funct3Of ⟨r.2, hc⟩ = BitVec.ofNat 3 f3 ∧
      funct7Of ⟨r.2, hc⟩ = BitVec.ofNat 7 r.1 := by
  decide

theorem getCmd_eq {op f3 : ℕ} (hop : op < 32) (hf3 : f3 < 8) :
    decoder_.getCmd op f3 =
      if h : Cmd.ofNat (cmdByte (f3 * 32 + op)).toNat = .UNDEFINED then
        .error (.simException "Can not find instruction by opcode, funct3")
      else .ok ⟨_, h⟩ := by
  simp only [getCmd, fetch_cmd hop hf3, bind, Except.bind]
  rfl

/-- The byte table answers with the row that owns the opcode and funct3. -/
theorem getCmd_ok_iff (op : BitVec 5) (f3 : BitVec 3) (h : fmtOf op.toNat ≠ .R) (c : Command) :
    decoder_.getCmd op.toNat f3.toNat = .ok c ↔
      opcodeOf c = op ∧ funct3Of c = f3 ∧ tableRow c = c := by
  rw [getCmd_eq op.isLt f3.isLt]
  constructor
  · intro hc
    split at hc
    · cases hc
    · next hd =>
      cases hc
      simpa only [BitVec.ofNat_toNat, BitVec.setWidth_eq] using
        row_of_cmdByte op.toNat op.isLt f3.toNat f3.isLt h hd
  · rintro ⟨rfl, rfl, hr⟩
    have hv := cmdByte_opcodeOf c (fmtOf_opcodeOf c ▸ h)
    rw [hr] at hv
    rw [dif_neg (by rw [hv]; exact c.property)]
    exact congrArg Except.ok (Subtype.ext hv)

theorem getCmd7_eq {f3 f7 : ℕ} (hf3 : f3 < 8) (hf7 : f7 < 128) :
    decoder_.getCmd7 12 f3 f7 =
      if h : funct7Cmd f3 f7 = .UNDEFINED then
        .error (.simException "Can not find instruction by opcode, funct3, funct7")
      else .ok ⟨_, h⟩ := by
  have hs : f3 < decoder_.funct7_to_cmd_.size := funct7_size ▸ hf3
  simp only [getCmd7, fetch_cmd (show 12 < 32 by decide) hf3, bind, Except.bind, cmdByte_R f3 hf3,
    hs, dite_true, fetch_funct7 hs hf7]
  rfl

theorem getCmd7_ok_iff (op : BitVec 5) (f3 : BitVec 3) (f7 : BitVec 7) (h : fmtOf op.toNat = .R)
    (c : Command) : decoder_.getCmd7 op.toNat f3.toNat f7.toNat = .ok c ↔
      opcodeOf c = op ∧ funct3Of c = f3 ∧ funct7Of c = f7 := by
  have hop := opcode_of_R op.toNat op.isLt h
  rw [hop, getCmd7_eq f3.isLt f7.isLt]
  constructor
  · intro hc
    split at hc
    · cases hc
    · next hd =>
      cases hc
      obtain ⟨h1, h2, h3⟩ := row_of_funct7Rows f3.toNat f3.isLt _ (mem_of_funct7Cmd hd) hd
      refine ⟨h1.trans (BitVec.eq_of_toNat_eq hop.symm), ?_, ?_⟩
      · simpa only [BitVec.ofNat_toNat, BitVec.setWidth_eq] using h2
      · simpa only [BitVec.ofNat_toNat, BitVec.setWidth_eq] using h3
  · rintro ⟨rfl, rfl, rfl⟩
    have hv := funct7Cmd_funct7Of c (fmtOf_opcodeOf c ▸ h)
    rw [dif_neg (by rw [hv]; exact c.property)]
    exact congrArg Except.ok (Subtype.ext hv)

theorem funct7_eq (imm : BitVec 12) :
    imm.setWidth 32 >>> 5 = (imm.extractLsb' 5 7).setWidth 32 := by
  apply BitVec.eq_of_toNat_eq
  simp only [BitVec.toNat_ushiftRight, BitVec.toNat_setWidth, BitVec.extractLsb'_toNat,
    Nat.shiftRight_eq_div_pow]
  omega

theorem funct7_imm (w : U32) : (IFormat.ofWord w).imm.extractLsb' 5 7 = w.extractLsb' 25 7 := by
  apply BitVec.eq_of_toNat_eq
  simp only [IFormat.ofWord, BitVec.extractLsb'_toNat, Nat.shiftRight_eq_div_pow]
  omega

theorem setWidth_eq_iff {n : ℕ} (hn : n ≤ 32) (x : BitVec n) (k : ℕ) (hk : k < 2 ^ n) :
    x.setWidth 32 = BitVec.ofNat 32 k ↔ x = BitVec.ofNat n k := by
  have hx := x.isLt
  have hp : 2 ^ n ≤ 2 ^ 32 := Nat.pow_le_pow_right (by decide) hn
  rw [← BitVec.toNat_inj, ← BitVec.toNat_inj, BitVec.toNat_setWidth, BitVec.toNat_ofNat,
    BitVec.toNat_ofNat, Nat.mod_eq_of_lt (by omega), Nat.mod_eq_of_lt (by omega),
    Nat.mod_eq_of_lt hk]

theorem immI_plain {c : Command} (h₁ : c.val ≠ .SLLI) (h₂ : c.val ≠ .SRLI) (h₃ : c.val ≠ .SRAI)
    (h₄ : rawImm c = false) (fmt : IFormat) :
    immI c fmt = .ok (c, signExtend (fmt.imm.setWidth 32) 11) := by
  have hf : c.val ≠ .FENCE := fun h ↦ by simp [rawImm, h] at h₄
  have hs := mt (system_range c).mp (by simp [h₄])
  simp only [immI, shiftI, h₁, h₂, h₃, or_self, if_false, hf, hs, bind, Except.bind]
  rfl

theorem immI_SLLI {c : Command} (h : c.val = .SLLI) (fmt : IFormat) : immI c fmt =
    if fmt.imm.extractLsb' 5 7 = 0#7 then .ok (c, signExtend (fmt.imm.setWidth 32) 11)
    else .error (.simException "SLLI: incorrect immediate") := by
  have h₀ := setWidth_eq_iff (by decide) (fmt.imm.extractLsb' 5 7) 0 (by decide)
  have hs := mt (system_range c).mp (by simp [rawImm, h])
  rw [h] at hs
  simp only [immI, shiftI, h, if_true, funct7_eq, ne_eq, BitVec.ofNat_eq_ofNat, h₀, ite_not]
  split
  · simp only [bind, Except.bind, h, hs, reduceCtorEq, if_false]
    rfl
  · rfl

theorem immI_SRAI {c : Command} (h : c.val = .SRAI) (fmt : IFormat) : immI c fmt =
    if fmt.imm.extractLsb' 5 7 = 0#7 then
      .ok (.SRLI, signExtend (fmt.imm.setWidth 32) 11)
    else if fmt.imm.extractLsb' 5 7 = 0x20#7 then
      .ok (c, signExtend (fmt.imm.setWidth 32) 11)
    else .error (.simException "SRLI/SRAI: incorrect immediate") := by
  have h₀ := setWidth_eq_iff (by decide) (fmt.imm.extractLsb' 5 7) 0 (by decide)
  have h₁ := setWidth_eq_iff (by decide) (fmt.imm.extractLsb' 5 7) 0x20 (by decide)
  obtain rfl : c = .SRAI := Subtype.ext h
  simp only [immI, shiftI, reduceCtorEq, or_true, if_false, if_true, funct7_eq,
    BitVec.ofNat_eq_ofNat, h₀, h₁]
  split
  · rfl
  · split <;> rfl

theorem immI_FENCE {c : Command} (h : c.val = .FENCE) (fmt : IFormat) : immI c fmt =
    if (fmt.rd = 0 ∧ fmt.rs1 = 0) ∧ fmt.imm = 0x0ff#12 then .ok (c, fmt.imm.setWidth 32)
    else .error (.simException "FENCE: incorrect imm/rs1/rd") := by
  have hi := setWidth_eq_iff (by decide) fmt.imm 0x0ff (by decide)
  simp only [immI, shiftI, h, reduceCtorEq, or_self, if_false, if_true, bind, Except.bind, ne_eq,
    BitVec.ofNat_eq_ofNat, hi]
  by_cases hc : (fmt.rd = 0#5 ∧ fmt.rs1 = 0#5) ∧ fmt.imm = 0x0ff#12
  · rw [if_pos hc, if_neg (by simp [hc])]
    rfl
  · rw [if_neg hc, if_pos (by tauto)]
    rfl

theorem immI_WFI {c : Command} (h : c.val = .WFI) (fmt : IFormat) : immI c fmt =
    if fmt.rd = 0 ∧ fmt.rs1 = 0 then
      (systemCmd (fmt.imm.setWidth 32)).map (·, fmt.imm.setWidth 32)
    else .error (.simException "SYSTEM instruction: rs1, rd are not zero") := by
  have hs := (system_range c).mpr (by simp [rawImm, h])
  rw [h] at hs
  simp only [immI, shiftI, h, reduceCtorEq, or_self, if_false, hs, and_self, if_true, bind,
    Except.bind, ne_eq]
  by_cases hc : fmt.rd = 0 ∧ fmt.rs1 = 0
  · rw [if_pos hc, if_neg (by simp [hc])]
    rfl
  · rw [if_neg hc, if_pos (by tauto)]
    rfl

theorem systemCmd_ok_iff (imm : BitVec 12) (c : Command) :
    systemCmd (imm.setWidth 32) = .ok c ↔
      c.val = .ECALL ∧ imm = 0 ∨ c.val = .EBREAK ∧ imm = 1 ∨ c.val = .URET ∧ imm = 2 ∨
      c.val = .SRET ∧ imm = 0x102 ∨ c.val = .MRET ∧ imm = 0x302 ∨ c.val = .WFI ∧ imm = 0x105 := by
  obtain ⟨c, hc⟩ := c
  have hi := setWidth_eq_iff (by decide) imm
  simp only [systemCmd, BitVec.ofNat_eq_ofNat, hi _ (show 0x000 < 2 ^ 12 by decide),
    hi _ (show 0x001 < 2 ^ 12 by decide), hi _ (show 0x002 < 2 ^ 12 by decide),
    hi _ (show 0x102 < 2 ^ 12 by decide), hi _ (show 0x302 < 2 ^ 12 by decide),
    hi _ (show 0x105 < 2 ^ 12 by decide)]
  split_ifs <;> grind


theorem tableRow_eq_iff (c c₀ : Command) (h₀ : tableRow c₀ = c₀) : tableRow c = c₀ ↔
    (c₀.val = .SRAI ∧ (c.val = .SRLI ∨ c.val = .SRAI)) ∨
    (c₀.val = .WFI ∧ (c.val = .ECALL ∨ c.val = .EBREAK ∨ c.val = .URET ∨ c.val = .SRET ∨
      c.val = .MRET ∨ c.val = .WFI)) ∨
    (c₀.val ≠ .SRAI ∧ c₀.val ≠ .WFI ∧ c = c₀) := by
  have hc : (tableRow c).val = .SRAI ∧ (c.val = .SRLI ∨ c.val = .SRAI) ∨
      (tableRow c).val = .WFI ∧ (c.val = .ECALL ∨ c.val = .EBREAK ∨ c.val = .URET ∨
        c.val = .SRET ∨ c.val = .MRET ∨ c.val = .WFI) ∨
      (tableRow c).val ≠ .SRAI ∧ (tableRow c).val ≠ .WFI ∧ tableRow c = c := by
    revert c
    refine forall_command ?_
    decide +kernel
  constructor
  · rintro rfl
    grind
  · rintro (⟨h, hc'⟩ | ⟨h, hc'⟩ | ⟨h₁, h₂, rfl⟩)
    · apply Subtype.ext
      rw [h]
      rcases hc' with hc' | hc' <;> simp [tableRow, hc']
    · apply Subtype.ext
      rw [h]
      rcases hc' with hc' | hc' | hc' | hc' | hc' | hc' <;> simp [tableRow, hc']
    · exact h₀

theorem special_plain {c : Command} (h₁ : c.val ≠ .SLLI) (h₂ : c.val ≠ .SRLI)
    (h₃ : c.val ≠ .SRAI) (h₄ : rawImm c = false) (w : U32) : Special c w := by
  obtain ⟨c, hc⟩ := c
  cases c <;> trivial

theorem immI_shift_ok_iff (c₀ : Command) (h₀ : c₀.val = .SRAI) (w : U32) (c : Command)
    (imm : U32) : immI c₀ (IFormat.ofWord w) = .ok (c, imm) ↔ (c.val = .SRLI ∨ c.val = .SRAI) ∧
      Special c w ∧ imm = immOfI c (IFormat.ofWord w) := by
  obtain rfl : c₀ = .SRAI := Subtype.ext h₀
  obtain ⟨c, hc⟩ := c
  rw [immI_SRAI h₀, funct7_imm]
  constructor
  · intro h
    split at h
    · next hz => cases h; exact ⟨.inl rfl, hz, rfl⟩
    · split at h
      · next hz => cases h; exact ⟨.inr rfl, hz, rfl⟩
      · cases h
  · rintro ⟨rfl | rfl, hs, rfl⟩
    · have hz : w.extractLsb' 25 7 = 0#7 := hs
      rw [if_pos hz]; rfl
    · have hz : w.extractLsb' 25 7 = 0x20#7 := hs
      rw [hz, if_neg (by decide), if_pos rfl]; rfl

theorem immI_system_ok_iff (c₀ : Command) (h₀ : c₀.val = .WFI) (w : U32) (c : Command)
    (imm : U32) : immI c₀ (IFormat.ofWord w) = .ok (c, imm) ↔ (c.val = .ECALL ∨
      c.val = .EBREAK ∨ c.val = .URET ∨ c.val = .SRET ∨ c.val = .MRET ∨ c.val = .WFI) ∧
      Special c w ∧ imm = immOfI c (IFormat.ofWord w) := by
  have hsys := systemCmd_ok_iff (IFormat.ofWord w).imm
  obtain ⟨c, hc⟩ := c
  rw [immI_WFI h₀]
  constructor
  · intro h
    split at h
    · next hz =>
      cases hs : systemCmd ((IFormat.ofWord w).imm.setWidth 32) with
      | error e => rw [hs] at h; cases h
      | ok c' =>
        rw [hs] at h
        cases h
        rcases (hsys _).mp hs with ⟨rfl, hi⟩ | ⟨rfl, hi⟩ | ⟨rfl, hi⟩ | ⟨rfl, hi⟩ | ⟨rfl, hi⟩ | ⟨rfl, hi⟩
        all_goals exact ⟨by simp, ⟨hz, hi⟩, rfl⟩
    · cases h
  · rintro ⟨hc', hs, rfl⟩
    rcases hc' with rfl | rfl | rfl | rfl | rfl | rfl
    all_goals
      have hz : (IFormat.ofWord w).rd = 0 ∧ (IFormat.ofWord w).rs1 = 0 := hs.1
      have hi : (IFormat.ofWord w).imm = _ := hs.2
      rw [if_pos hz, (hsys ⟨_, hc⟩).mpr (by simp [hi])]
      rfl

/-- The special cases of the `I` branch admit exactly the words their row asks for. -/
theorem immI_ok_iff (c₀ : Command) (h₀ : tableRow c₀ = c₀) (w : U32) (c : Command) (imm : U32) :
    immI c₀ (IFormat.ofWord w) = .ok (c, imm) ↔
      tableRow c = c₀ ∧ Special c w ∧ imm = immOfI c (IFormat.ofWord w) := by
  rw [tableRow_eq_iff c c₀ h₀]
  by_cases h₁ : c₀.val = .SRAI
  · simp [immI_shift_ok_iff c₀ h₁, h₁]
  by_cases h₂ : c₀.val = .WFI
  · simp [immI_system_ok_iff c₀ h₂, h₂]
  simp only [h₁, h₂, false_and, false_or, ne_eq, not_false_eq_true, true_and]
  obtain ⟨c₀, hc₀⟩ := c₀
  by_cases h₃ : c₀ = .SLLI
  · subst h₃
    rw [immI_SLLI rfl, funct7_imm]
    constructor
    · intro h
      split at h
      · next hz => cases h; exact ⟨rfl, hz, rfl⟩
      · cases h
    · rintro ⟨rfl, hz, rfl⟩
      have hz : w.extractLsb' 25 7 = 0#7 := hz
      rw [if_pos hz]; rfl
  by_cases h₄ : c₀ = .FENCE
  · subst h₄
    rw [immI_FENCE rfl]
    constructor
    · intro h
      split at h
      · next hz => cases h; exact ⟨rfl, hz, rfl⟩
      · cases h
    · rintro ⟨rfl, hz, rfl⟩
      exact if_pos hz
  have hr : rawImm ⟨c₀, hc₀⟩ = false := by
    cases c₀ <;> first | rfl | exact absurd rfl h₂ | exact absurd rfl h₄ | cases h₀
  have hl : c₀ ≠ .SRLI := by
    rintro rfl
    cases h₀
  rw [immI_plain h₃ hl h₁ hr]
  constructor
  · intro h
    cases h
    exact ⟨rfl, special_plain h₃ hl h₁ hr w, by simp only [immOfI, hr]; rfl⟩
  · rintro ⟨rfl, -, rfl⟩
    simp only [immOfI, hr]; rfl

theorem sz_iff (w : U32) : w &&& 0b11 ≠ 0b11 ↔ w.extractLsb' 0 2 ≠ 3 := by
  have h : w.toNat &&& 2 ^ 2 - 1 = w.toNat % 2 ^ 2 := Nat.and_two_pow_sub_one_eq_mod _ _
  rw [not_iff_not, ← BitVec.toNat_inj, ← BitVec.toNat_inj]
  simp only [BitVec.toNat_and, BitVec.extractLsb'_toNat, Nat.shiftRight_zero]
  exact iff_of_eq (congrArg (· = 3) h)

theorem opcode_eq (w : U32) :
    ((w &&& (1#32 <<< 7 - 1)) >>> 2).toNat = (w.extractLsb' 2 5).toNat := by
  have h : w.toNat &&& 2 ^ 7 - 1 = w.toNat % 2 ^ 7 := Nat.and_two_pow_sub_one_eq_mod _ _
  simp [Nat.shiftRight_eq_div_pow] at h ⊢
  rw [h]
  omega

theorem decode_of_sz {w : U32} (h : w.extractLsb' 0 2 ≠ 3) :
    decoder_.decode w = .error (.simException "Packed instructions are not supported!") := by
  rw [decode, if_pos ((sz_iff w).mpr h)]

theorem decode_eq {w : U32} (h : w.extractLsb' 0 2 = 3) : decoder_.decode w =
    match fmtOf (w.extractLsb' 2 5).toNat with
    | .UNDEFINED => .error (.simException "Opcode is not supported")
    | .R => do
      let cmd ← decoder_.getCmd7 (w.extractLsb' 2 5).toNat (w.extractLsb' 12 3).toNat
        (w.extractLsb' 25 7).toNat
      return readAs .R cmd w
    | .I => do
      let cmd ← decoder_.getCmd (w.extractLsb' 2 5).toNat (w.extractLsb' 12 3).toNat
      let p ← immI cmd (IFormat.ofWord w)
      return genI p.1 (toReg (w.extractLsb' 7 5)) (toReg (w.extractLsb' 15 5)) p.2
    | .U => do
      let cmd ← decoder_.getCmd (w.extractLsb' 2 5).toNat
      return readAs .U cmd w
    | .J => do
      let cmd ← decoder_.getCmd (w.extractLsb' 2 5).toNat
      return readAs .J cmd w
    | f => do
      let cmd ← decoder_.getCmd (w.extractLsb' 2 5).toNat (w.extractLsb' 12 3).toNat
      return readAs f cmd w := by
  have hs : ¬ (w &&& 0b11 ≠ 0b11) := fun hw ↦ (sz_iff w).mp hw h
  rw [decode, if_neg hs]
  simp only [opcode_eq, fetch_fmt (w.extractLsb' 2 5).isLt, bind, Except.bind]
  cases fmtOf (w.extractLsb' 2 5).toNat <;> rfl

theorem fmtOf_of_selects {w : U32} {c : Command} (h : Selects w c) :
    fmtOf (w.extractLsb' 2 5).toNat = formatOf c := by
  rw [h.opcode, fmtOf_opcodeOf]

theorem special_of_format {c : Command} (h : formatOf c ≠ .I) (w : U32) : Special c w :=
  have hs := plain_of_format c h
  special_plain hs.1 hs.2.1 hs.2.2.1 hs.2.2.2 w

/-- `decode` returns the instruction of the row that selects the word, its fields
read under the format of that row. -/
theorem decode_ok_iff (w : U32) (inst : Inst) : decoder_.decode w = .ok inst ↔
    Selects w inst.cmd_ ∧ inst = readAs (formatOf inst.cmd_) inst.cmd_ w := by
  by_cases hsz : w.extractLsb' 0 2 = 3
  swap
  · rw [decode_of_sz hsz]
    exact ⟨fun h ↦ (by cases h), fun h ↦ absurd h.1.sz hsz⟩
  rw [decode_eq hsz]
  constructor
  · intro h
    cases hf : fmtOf (w.extractLsb' 2 5).toNat <;> simp only [hf, Results.bind_eq_ok] at h
    case R =>
      obtain ⟨c, hc, he⟩ := h
      obtain ⟨h₁, h₂, h₃⟩ := (getCmd7_ok_iff _ _ _ hf c).mp hc
      have hfc : formatOf c = .R := by rw [← fmtOf_opcodeOf, h₁, hf]
      cases he
      refine ⟨⟨hsz, h₁.symm, fun _ _ ↦ h₂.symm, fun _ ↦ h₃.symm, ?_⟩, by
        change _ = readAs (formatOf c) c w; rw [hfc]⟩
      exact special_of_format (c := c) (by simp [hfc]) w
    case I =>
      obtain ⟨c₀, hc, ⟨c, imm⟩, hi, he⟩ := h
      obtain ⟨h₁, h₂, h₀⟩ := (getCmd_ok_iff _ _ (by rw [hf]; decide) c₀).mp hc
      obtain ⟨rfl, hs, rfl⟩ := (immI_ok_iff c₀ h₀ w c imm).mp hi
      obtain ⟨hf', ho, h3⟩ := formatOf_tableRow c
      have hfc : formatOf c = .I := by rw [← fmtOf_opcodeOf, ← ho, h₁, hf]
      cases he
      exact ⟨⟨hsz, h₁.symm.trans ho, fun _ _ ↦ h₂.symm.trans h3,
        fun hR ↦ (by rw [show formatOf c = .R from hR] at hfc; cases hfc), hs⟩, by
        change _ = readAs (formatOf c) c w; rw [hfc]; rfl⟩
    case UNDEFINED => cases h
    case S | B =>
      obtain ⟨c, hc, he⟩ := h
      obtain ⟨h₁, h₂, -⟩ := (getCmd_ok_iff _ _ (by rw [hf]; decide) c).mp hc
      have hfc := (fmtOf_opcodeOf c).symm.trans ((congrArg (fmtOf ·.toNat) h₁).trans hf)
      cases he
      exact ⟨⟨hsz, h₁.symm, fun _ _ ↦ h₂.symm,
        fun hR ↦ (by rw [show formatOf c = .R from hR] at hfc; cases hfc),
        special_of_format (c := c) (by simp [hfc]) w⟩, by
        change _ = readAs (formatOf c) c w; rw [hfc]⟩
    case U | J =>
      obtain ⟨c, hc, he⟩ := h
      obtain ⟨h₁, h₂, -⟩ := (getCmd_ok_iff _ 0 (by rw [hf]; decide) c).mp hc
      have hfc := (fmtOf_opcodeOf c).symm.trans ((congrArg (fmtOf ·.toNat) h₁).trans hf)
      cases he
      exact ⟨⟨hsz, h₁.symm, fun hU hJ ↦ (by first | exact absurd hfc hU | exact absurd hfc hJ),
        fun hR ↦ (by rw [show formatOf c = .R from hR] at hfc; cases hfc),
        special_of_format (c := c) (by simp [hfc]) w⟩, by
        change _ = readAs (formatOf c) c w; rw [hfc]⟩
  · rintro ⟨hs, hi⟩
    have hf := fmtOf_of_selects hs
    have ho := hs.opcode.symm
    rw [hf]
    cases hfc : formatOf inst.cmd_ <;> rw [hfc] at hi hf <;> simp only [Results.bind_eq_ok]
    case R =>
      have h₃ := hs.funct3 (by simp [hfc]) (by simp [hfc])
      exact ⟨_, (getCmd7_ok_iff _ _ _ hf _).mpr ⟨ho, h₃.symm, (hs.funct7 hfc).symm⟩,
        congrArg Except.ok hi.symm⟩
    case I =>
      have h₃ := hs.funct3 (by simp [hfc]) (by simp [hfc])
      obtain ⟨-, ho', h3⟩ := formatOf_tableRow inst.cmd_
      have h₀ : tableRow (tableRow inst.cmd_) = tableRow inst.cmd_ := by
        generalize inst.cmd_ = c
        revert c
        refine forall_command ?_
        decide +kernel
      exact ⟨tableRow inst.cmd_, (getCmd_ok_iff _ _ (by rw [hf]; decide) _).mpr
          ⟨ho'.trans ho, h3.trans h₃.symm, h₀⟩,
        (inst.cmd_, immOfI inst.cmd_ (IFormat.ofWord w)),
        (immI_ok_iff _ h₀ w _ _).mpr ⟨rfl, hs.special, rfl⟩, congrArg Except.ok hi.symm⟩
    case UNDEFINED => exact absurd hfc (formatOf_ne_UNDEFINED _)
    case S | B =>
      have h₃ := hs.funct3 (by simp [hfc]) (by simp [hfc])
      exact ⟨inst.cmd_, (getCmd_ok_iff _ _ (by rw [hf]; decide) _).mpr
        ⟨ho, h₃.symm, tableRow_of_format _ (by simp [hfc])⟩, congrArg Except.ok hi.symm⟩
    case U | J =>
      exact ⟨inst.cmd_, (getCmd_ok_iff _ 0 (by rw [hf]; decide) _).mpr
        ⟨ho, funct3Of_upper _ (by simp [hfc]), tableRow_of_format _ (by simp [hfc])⟩,
        congrArg Except.ok hi.symm⟩

/-- A result that is no undefined behaviour: a value, or a `SimException`. -/
def Defined {α : Type} (x : Except Stop α) : Prop := ∀ e, x = .error e → ∃ what, e = .simException what

theorem Defined.bind {α β : Type} {x : Except Stop α} {f : α → Except Stop β} (hx : Defined x)
    (hf : ∀ a, x = .ok a → Defined (f a)) : Defined (x >>= f) := by
  intro e h
  rcases Results.bind_error h with h | ⟨a, ha, h⟩
  · exact hx e h
  · exact hf a ha e h

theorem Defined.ok {α : Type} (a : α) : Defined (.ok a) := fun _ h ↦ by cases h

theorem Defined.simException {α : Type} (what : String) :
    Defined (.error (.simException what) : Except Stop α) := fun _ h ↦ by cases h; exact ⟨what, rfl⟩

theorem getCmd_defined (op : BitVec 5) (f3 : BitVec 3) : Defined (decoder_.getCmd op.toNat f3.toNat) := by
  rw [getCmd_eq op.isLt f3.isLt]
  split
  · exact .simException _
  · exact .ok _

theorem getCmd7_defined (op : BitVec 5) (f3 : BitVec 3) (f7 : BitVec 7) (h : fmtOf op.toNat = .R) :
    Defined (decoder_.getCmd7 op.toNat f3.toNat f7.toNat) := by
  rw [opcode_of_R op.toNat op.isLt h, getCmd7_eq f3.isLt f7.isLt]
  split
  · exact .simException _
  · exact .ok _

theorem shiftI_defined (c : Command) (imm : U32) : Defined (shiftI c imm) := by
  simp only [shiftI]
  split_ifs <;> first | exact .ok _ | exact .simException _

theorem systemCmd_defined (imm : U32) : Defined (systemCmd imm) := by
  unfold systemCmd
  split_ifs <;> first | exact .ok _ | exact .simException _

theorem immI_defined (c : Command) (fmt : IFormat) : Defined (immI c fmt) := by
  refine .bind (shiftI_defined c _) fun p _ ↦ ?_
  obtain ⟨c, imm⟩ := p
  have hs := (systemCmd_defined imm).bind (f := fun c ↦ .ok (c, imm)) fun _ _ ↦ .ok _
  dsimp only
  split_ifs <;> first | exact .ok _ | exact .simException _ | exact hs

theorem decode_defined (w : U32) : Defined (decoder_.decode w) := by
  by_cases hsz : w.extractLsb' 0 2 = 3
  swap
  · rw [decode_of_sz hsz]
    exact .simException _
  have h0 := getCmd_defined (w.extractLsb' 2 5) 0
  have h3 := getCmd_defined (w.extractLsb' 2 5) (w.extractLsb' 12 3)
  rw [decode_eq hsz]
  cases hf : fmtOf (w.extractLsb' 2 5).toNat
  case R => exact .bind (getCmd7_defined _ _ _ hf) fun _ _ ↦ .ok _
  case I => exact .bind h3 fun c _ ↦ .bind (immI_defined c _) fun _ _ ↦ .ok _
  case S | B => exact .bind h3 fun _ _ ↦ .ok _
  case U | J => exact .bind h0 fun _ _ ↦ .ok _
  case UNDEFINED => exact .simException _

/-- The tables built by the constructor accept exactly the words some row of
`cmd_desc` selects; the command is that row's, its format the one the fields were
read under, and every refusal is a `SimException`, so no table index is out of range. -/
theorem decode_accepts (w : U32) :
    new = .ok decoder_ ∧
    (∀ c, (∃ inst, decoder_.decode w = .ok inst ∧ inst.cmd_ = c) ↔ Selects w c) ∧
    (∀ inst, decoder_.decode w = .ok inst →
      fetch decoder_.opc_to_fmt_ (w.extractLsb' 2 5).toNat = .ok inst.getCmdFormat ∧
      inst = readAs inst.getCmdFormat inst.cmd_ w) ∧
    (∀ e, decoder_.decode w = .error e → ∃ what, e = .simException what) := by
  refine ⟨new_eq, fun c ↦ ⟨?_, fun hs ↦ ?_⟩, fun inst h ↦ ?_, decode_defined w⟩
  · rintro ⟨inst, h, rfl⟩
    exact ((decode_ok_iff w inst).mp h).1
  · have hc := readAs_cmd (formatOf c) c w
    exact ⟨_, (decode_ok_iff w _).mpr (by rw [hc]; exact ⟨hs, rfl⟩), hc⟩
  · obtain ⟨hs, hi⟩ := (decode_ok_iff w inst).mp h
    refine ⟨?_, hi⟩
    rw [fetch_fmt (w.extractLsb' 2 5).isLt, fmtOf_of_selects hs]
    rfl

end Decoder

end RiscvSim
