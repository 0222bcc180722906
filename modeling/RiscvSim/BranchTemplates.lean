import RiscvSim.RegisterAllocation

namespace RiscvSim

open Isa Ir X86 Results Translator Native TranslateInst

/-- The commands that `translateCondBranch` translates. -/
def branchTypes : List Cmd := [.BEQ, .BNE, .BLT, .BGE, .BLTU, .BGEU]

def taken : Cmd → U32 → U32 → Bool
  | .BEQ, v, w => v == w
  | .BNE, v, w => v != w
  | .BLT, v, w => v.slt w
  | .BGE, v, w => w.sle v
  | .BLTU, v, w => v.ult w
  | .BGEU, v, w => w.ule v
  | _, _, _ => false

def jumpOn : Cmd → Cond
  | .BEQ => .e
  | .BNE => .ne
  | .BLT => .l
  | .BGE => .ge
  | .BLTU => .b
  | _ => .ae

/-- The branch is taken in a state. -/
def Ir.Inst.takenIn (inst : Inst) (s : State) : Bool :=
  taken inst.getCmd (s.regs.get inst.getRs1) (s.regs.get inst.getRs2)

def branched (inst : Inst) (offset : U32) (s : State) : State :=
  s.withPC (if inst.takenIn s then s.pc + offset + inst.getImm * 2 else s.pc + offset + 4)

section

variable {inst : Inst} (hcmd : inst.getCmd ∈ branchTypes)

include hcmd

theorem holds_jumpOn (v w : U32) : (jumpOn inst.getCmd).holds (arith .cmp v w).2 = taken inst.getCmd v w := by
  simp only [branchTypes, List.mem_cons, List.not_mem_nil, or_false] at hcmd
  rcases hcmd with hc | hc | hc | hc | hc | hc <;> rw [hc]
  · exact holds_e v w
  · exact holds_ne v w
  · exact holds_l v w
  · exact holds_ge v w
  · exact holds_b v w
  · exact holds_ae v w

theorem exec_branch (offset : U32) (s : State) :
    (inst.func_.exec inst offset).run s = .ok .endTrace (branched inst offset s) := by
  obtain ⟨imm, rs1, rs2, rd, c, hc⟩ := inst
  simp only [branchTypes, Inst.getCmd, List.mem_cons, List.not_mem_nil, or_false] at hcmd
  rcases hcmd with rfl | rfl | rfl | rfl | rfl | rfl <;> rfl

theorem translate_branch : inst.translate = translateCondBranch inst (jumpOn inst.getCmd) := by
  obtain ⟨imm, rs1, rs2, rd, c, hc⟩ := inst
  simp only [branchTypes, Inst.getCmd, List.mem_cons, List.not_mem_nil, or_false] at hcmd
  rcases hcmd with rfl | rfl | rfl | rfl | rfl | rfl <;> rfl

theorem opcode_branch : inst.getOpcode = .BRANCH := by
  obtain ⟨imm, rs1, rs2, rd, c, hc⟩ := inst
  simp only [branchTypes, Inst.getCmd, List.mem_cons, List.not_mem_nil, or_false] at hcmd
  rcases hcmd with rfl | rfl | rfl | rfl | rfl | rfl <;> rfl

theorem reads_branch : inst.Reads inst.getRs1 ∧ inst.Reads inst.getRs2 := by
  obtain ⟨imm, rs1, rs2, rd, c, hc⟩ := inst
  simp only [branchTypes, Inst.getCmd, List.mem_cons, List.not_mem_nil, or_false] at hcmd
  rcases hcmd with rfl | rfl | rfl | rfl | rfl | rfl
  all_goals exact ⟨Inst.reads_iff.mpr (.inl ⟨rfl, rfl⟩), Inst.reads_iff.mpr (.inr ⟨rfl, rfl⟩)⟩

theorem not_writes_branch (r : Reg) : ¬ inst.Writes r := by
  obtain ⟨imm, rs1, rs2, rd, c, hc⟩ := inst
  simp only [branchTypes, Inst.getCmd, List.mem_cons, List.not_mem_nil, or_false] at hcmd
  rcases hcmd with rfl | rfl | rfl | rfl | rfl | rfl
  all_goals exact fun hw ↦ Bool.false_ne_true (Inst.writes_iff.mp hw).1

end

namespace Translator

variable {tr : Translator} {a : Allocation} {inst : Inst}

/-- The comparison leaves the registers alone and sets the flags. -/
theorem emits_compared {layout : Layout} {clobber : Clobber} {m₀ m : Machine State} {R : Regs}
    (huses : tr.Uses a) (h : a.Holds layout m₀ m R) :
    Emits (env layout clobber) (compared inst) tr m fun m' ↦ a.Holds layout m₀ m' R ∧
      m'.flags = some (arith .cmp (R.get inst.getRs1) (R.get inst.getRs2)).2 := by
  refine .firstOperand huses h fun g m' h' hg ↦ .RS2 ?_
  rw [huses]
  refine .cmp (l := .host g) h'.ready rfl ?_
  rw [hg, h'.value]
  exact ⟨h'.withFlags _, rfl⟩

theorem block_addPC {layout : Layout} (clobber : Clobber) {m₀ m : Machine State} {R : Regs}
    (h : a.Holds layout m₀ m R) (v : U64) {pc : U32} (hpc : m₀.world.pc + v.setWidth 32 = pc) :
    ∃ m', (block (env layout clobber) (addPC v)).run m = .ok () m' ∧
      a.Holds layout (setPc m₀ pc) m' R := by
  obtain ⟨m', hadd, hm'⟩ := exec_addPC clobber h v hpc
  exact ⟨m', run_bind_of_ok hadd, hm'⟩

theorem At.getOffset {insts : List Inst} {virt : Bool} {i : ℕ} (h : tr.At insts virt i) :
    tr.getOffset = BitVec.ofNat 64 (i * 4) := by
  rw [Translator.getOffset, h.cur_inst]

section

variable {layout : Layout} {clobber : Clobber} {insts : List Inst} {virt : Bool} {i : ℕ} {s : State}

theorem puts_jal (hcmd : inst.getCmd = .JAL) : Puts layout clobber insts virt inst.translate inst i s
    (linked inst (BitVec.ofNat 32 (4 * i)) s) := by
  have htranslate : inst.translate = translateJAL inst ∧ inst.Writes inst.getRd := by
    obtain ⟨imm, rs1, rs2, rd, c, hc⟩ := inst
    cases hcmd
    exact ⟨rfl, Inst.writes_iff.mpr ⟨rfl, rfl⟩⟩
  refine puts_of_emits _ htranslate.2 fun tr a m hal hat hm hpc _ ↦ ?_
  have hjal : Emits (env layout clobber) (translateJAL inst) tr m _ := .jal hal.uses hm
  rw [hat.offset, hpc] at hjal
  rw [htranslate.1]
  exact hjal

theorem puts_jalr (hcmd : inst.getCmd = .JALR) : Puts layout clobber insts virt inst.translate inst i s
    (linkedFirst inst (BitVec.ofNat 32 (4 * i)) s) := by
  have htranslate : inst.translate = translateJALR inst ∧ inst.Writes inst.getRd ∧
      inst.Reads inst.getRs1 := by
    obtain ⟨imm, rs1, rs2, rd, c, hc⟩ := inst
    cases hcmd
    exact ⟨rfl, Inst.writes_iff.mpr ⟨rfl, rfl⟩, Inst.reads_iff.mpr (.inl ⟨rfl, rfl⟩)⟩
  refine puts_of_emits _ htranslate.2.1 fun tr a m hal hat hm hpc hvalues ↦ ?_
  have hjalr : Emits (env layout clobber) (translateJALR inst) tr m _ := .jalr hal.uses hm
  have htarget : ∀ v, ((a.regs m).set inst.getRd v).get inst.getRs1 =
      (s.regs.set inst.getRd v).get inst.getRs1 := fun v ↦
    Regs.get_set_congr (hvalues _ htranslate.2.2) inst.getRd v
  dsimp only at hjalr
  rw [hat.offset, hpc, htarget] at hjalr
  rw [htranslate.1]
  exact hjalr

section

variable (hcmd : inst.getCmd ∈ branchTypes) (hz : takenOffset inst (BitVec.ofNat 64 (i * 4)) ≠ 0)

include hcmd hz

theorem branch_appends {tr : Translator} (hat : tr.At insts virt i) {c : NativeCode}
    (hc : ∀ pre, (compared inst).run { tr with code_ := pre } = ((), { tr with code_ := pre ++ c }))
    (pre : NativeCode) : inst.translate.run { tr with code_ := pre } = ((), { tr with
      code_ := pre ++ (c ++ twoWay (jumpOn inst.getCmd) tr.labels (tr.labels + 1)
        (addPC (tr.getOffset + 4)) (addPC (takenOffset inst tr.getOffset)))
      labels := tr.labels + 2 }) := by
  rw [translate_branch hcmd]
  exact condBranch_forward _ hc (by rw [hat.getOffset]; exact hz) pre

theorem plain_branch : Plain insts virt i inst.translate := by
  intro tr a hal hat
  obtain ⟨c, hc, hmild⟩ := mild_compared hal.uses inst
  refine ⟨_, tr.labels + 2, Nat.le_add_right _ 2, fun l hl ↦ ?_, branch_appends hcmd hz hat hc⟩
  rcases List.mem_append.mp hl with hl | hl
  · exact absurd hl (hmild.straight.not_label l)
  · simp [twoWay, addPC] at hl
    omega

theorem puts_branch : Puts layout clobber insts virt inst.translate inst i s
    (branched inst (BitVec.ofNat 32 (4 * i)) s) := by
  intro tr a m hal hat hm hmirrors hreads
  obtain ⟨c, hc, hmild⟩ := mild_compared hal.uses inst
  have hcompared : Emits (env layout clobber) (compared inst) tr m _ :=
    emits_compared hal.uses (Allocation.Holds.refl hm)
  obtain ⟨d, m₁, hd, hblock, hm₁, hflags⟩ := hcompared
  rw [appended_unique hd hc] at hblock
  have hvalues := values_of_held hal hm hreads
  rw [hvalues _ (reads_branch hcmd).1, hvalues _ (reads_branch hcmd).2] at hflags
  have hcond := holds_jumpOn hcmd (s.regs.get inst.getRs1) (s.regs.get inst.getRs2)
  have hpc : m.world.pc = s.pc := by rw [hmirrors]
  have hlink := setWidth_link tr m.world.pc
  have htarget := setWidth_takenOffset inst tr.getOffset m.world.pc
  rw [hat.offset] at hlink htarget
  -- one of the two additions is run
  have hadd : ∃ m₂, (block (env layout clobber) (if inst.takenIn s then
      addPC (takenOffset inst tr.getOffset) else addPC (tr.getOffset + 4))).run m₁ = .ok () m₂ ∧
      a.Holds layout (setPc m (branched inst (BitVec.ofNat 32 (4 * i)) s).pc) m₂ (a.regs m) := by
    rw [branched, ← hpc]
    cases inst.takenIn s with
    | true => exact block_addPC clobber hm₁ _ htarget
    | false => exact block_addPC clobber hm₁ _ hlink
  obtain ⟨m₂, hblock₂, hm₂⟩ := hadd
  have hcode : emitted inst.translate tr = c ++ twoWay (jumpOn inst.getCmd) tr.labels (tr.labels + 1)
      (addPC (tr.getOffset + 4)) (addPC (takenOffset inst tr.getOffset)) := by
    rw [emitted, branch_appends hcmd hz hat hc []]
    rfl
  rw [hcode]
  refine ⟨m₂, (Through.of_block hblock).append
    (.twoWay (mild_addPC _).straight (mild_addPC _).straight hflags ?_) le_rfl fun l hl ↦ ?_, ?_⟩
  · rw [hcond]
    exact hblock₂
  · exact absurd hl (hmild.straight.not_label l)
  · exact .of_holds hal hm hmirrors hm₂ rfl (fun r _ hw ↦ absurd hw (not_writes_branch hcmd r))
      fun r _ ↦ rfl

end

end

end Translator

end RiscvSim
