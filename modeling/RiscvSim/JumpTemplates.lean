import RiscvSim.Templates
import RiscvSim.SingleStep

namespace RiscvSim

open Isa Ir X86 Results Translator Native TranslateInst

/-- What a JALR is for: both operands are read before anything is written. -/
def jumped (inst : Inst) (offset : U32) (s : State) : State :=
  { s with
    regs := s.regs.set inst.getRd (s.pc + offset + 4)
    pc := (s.regs.get inst.getRs1 + inst.getImm) &&& ~~~1#32 }

/-- What it does: the target is computed from the registers that hold the link already. -/
def linkedFirst (inst : Inst) (offset : U32) (s : State) : State :=
  let regs := s.regs.set inst.getRd (s.pc + offset + 4)
  { s with regs := regs, pc := (regs.get inst.getRs1 + inst.getImm) &&& ~~~1#32 }

/-- The link does not take the place of the target, or the two lead to one address. -/
def KeepsTarget (inst : Inst) (offset : U32) (s : State) : Prop :=
  inst.getRd = 0 ∨ inst.getRd ≠ inst.getRs1 ∨
    (s.pc + offset + 4 + inst.getImm) &&& ~~~1#32 =
      (s.regs.get inst.getRs1 + inst.getImm) &&& ~~~1#32

instance (inst : Inst) (offset : U32) (s : State) : Decidable (KeepsTarget inst offset s) := by
  unfold KeepsTarget
  infer_instance

theorem linkedFirst_eq_iff (inst : Inst) (offset : U32) (s : State) :
    linkedFirst inst offset s = jumped inst offset s ↔ KeepsTarget inst offset s := by
  have hpc : linkedFirst inst offset s = jumped inst offset s ↔
      (((s.regs.set inst.getRd (s.pc + offset + 4)).get inst.getRs1 + inst.getImm) &&& ~~~1#32 =
        (s.regs.get inst.getRs1 + inst.getImm) &&& ~~~1#32) := by
    constructor
    · exact fun h ↦ congrArg State.pc h
    · intro h
      rw [linkedFirst, jumped, h]
  rw [hpc, KeepsTarget]
  by_cases hrd : inst.getRd = 0
  · rw [hrd, Regs.set_zero]
    exact iff_of_true rfl (.inl rfl)
  · by_cases hrs1 : inst.getRd = inst.getRs1
    · rw [← hrs1, Regs.get_set_self _ hrd]
      simp [hrd]
    · rw [Regs.get_set_of_ne _ (Ne.symm hrs1)]
      exact iff_of_true rfl (.inr (.inl hrs1))

theorem exec_jalr {inst : Inst} (hcmd : inst.getCmd = .JALR) (offset : U32) (s : State) :
    (inst.func_.exec inst offset).run s = .ok .endTrace (linkedFirst inst offset s) := by
  obtain ⟨imm, rs1, rs2, rd, c, hc⟩ := inst
  cases hcmd
  rfl

def linked (inst : Inst) (offset : U32) (s : State) : State :=
  { s with
    regs := s.regs.set inst.getRd (s.pc + offset + 4)
    pc := s.pc + offset + inst.getImm * 2 }

theorem exec_jal {inst : Inst} (hcmd : inst.getCmd = .JAL) (offset : U32) (s : State) :
    (inst.func_.exec inst offset).run s = .ok .endTrace (linked inst offset s) := by
  obtain ⟨imm, rs1, rs2, rd, c, hc⟩ := inst
  cases hcmd
  rfl

namespace Native

/-- The program counter is a member that no location is in. -/
def setPc (m : Machine State) (pc : U32) : Machine State := { m with world := m.world.withPC pc }

theorem look_setPc (m : Machine State) (pc : U32) (l : Loc) : look (setPc m pc) l = look m l := by
  cases l <;> rfl

theorem valueOf_setPc (m : Machine State) (pc : U32) (s : Src) :
    valueOf (setPc m pc) s = valueOf m s := by
  cases s with
  | loc l => exact look_setPc m pc l
  | imm v => rfl

section

variable {layout : Layout} {m : Machine State} (hm : Ready layout m)

include hm

theorem load_pc : Native.load layout (m.regs .rdi + offsetofPc) 32 m.world = .ok m.world.pc := by
  rw [hm, Native.load, placeOf_state (by decide)]
  exact congrArg Except.ok (BitVec.setWidth_eq _)

theorem store_pc (pc : U32) :
    Native.store layout (m.regs .rdi + offsetofPc) pc m.world = .ok (m.world.withPC pc) := by
  rw [hm, Native.store, placeOf_state (by decide)]
  change (if 32 ≤ 32 then Except.ok (m.world.withPC (replace m.world.pc pc)) else _) = _
  rw [if_pos le_rfl, replace, if_pos le_rfl, BitVec.setWidth_eq]

variable (clobber : Clobber)

theorem exec_add_pc (v : U64) : ∃ f, (exec (env layout clobber) (.bin .add PC (.imm v))).run m =
    .ok () ((setPc m (m.world.pc + v.setWidth 32)).withFlags f) := by
  refine ⟨_, exec_add rfl (load_pc hm) rfl ?_⟩
  exact congrArg (Except.map fun s ↦ { m with world := s }) (store_pc hm _)

theorem exec_mov_of_pc : (exec (env layout clobber) (.bin .mov TMP1 PC)).run m =
    .ok () (put m (.host .rax) m.world.pc) := X86.exec_mov rfl (load_pc hm) rfl

theorem exec_mov_to_pc : (exec (env layout clobber) (.bin .mov PC TMP1)).run m =
    .ok () (setPc m (look m (.host .rax))) := by
  refine X86.exec_mov rfl rfl ?_
  exact congrArg (Except.map fun s ↦ { m with world := s }) (store_pc hm _)

end

end Native

theorem Allocation.guest_setPc (a : Allocation) (m : Machine State) (pc : U32) :
    a.guest (setPc m pc) = (a.guest m).withPC pc := by
  have hr : a.regs (setPc m pc) = a.regs m := Regs.ext fun _ ↦ valueOf_setPc m pc _
  rw [guest, hr]
  rfl

theorem Allocation.Holds.setPc {a : Allocation} {layout : Layout} {m₀ m : Machine State} {R : Regs}
    (h : a.Holds layout m₀ m R) (pc : U32) : a.Holds layout (setPc m₀ pc) (setPc m pc) R where
  toKeeps := ⟨h.ready, h.stack, by rw [Native.setPc, h.world]; rfl⟩
  value r := (valueOf_setPc m pc _).trans (h.value r)

theorem exec_addPC {a : Allocation} {layout : Layout} (clobber : Clobber) {m₀ m : Machine State} {R : Regs}
    (h : a.Holds layout m₀ m R) (v : U64) {pc : U32} (hpc : m₀.world.pc + v.setWidth 32 = pc) :
    ∃ m', (exec (env layout clobber) (.bin .add PC (.imm v))).run m = .ok () m' ∧
      a.Holds layout (setPc m₀ pc) m' R := by
  obtain ⟨f, hadd⟩ := exec_add_pc h.ready clobber v
  have hsame : m.world.pc = m₀.world.pc := by rw [h.world]
  rw [hsame, hpc] at hadd
  exact ⟨_, hadd, (h.setPc pc).withFlags f⟩

theorem setWidth_link (tr : Translator) (pc : U32) :
    pc + (tr.getOffset + 4).setWidth 32 = pc + tr.getOffset.setWidth 32 + 4 := by
  rw [BitVec.setWidth_add _ _ (by decide), ← BitVec.add_assoc]
  rfl

theorem setWidth_takenOffset (inst : Inst) (offset : U64) (pc : U32) :
    pc + (takenOffset inst offset).setWidth 32 = pc + offset.setWidth 32 + inst.getImm * 2 := by
  rw [takenOffset, BitVec.setWidth_add _ _ (by decide), BitFields.setWidth_signExtend_self (by decide),
    BitVec.add_assoc]

namespace Emits

variable {layout : Layout} {clobber : Clobber} {a : Allocation} {tr : Translator} {inst : Inst}
  {m m₀ : Machine State} {R : Regs}

theorem moveToRd {g : Gp} (huses : tr.Uses a) (h : a.Holds layout m₀ m R) {v : U32}
    (hv : look m (.host g) = v) {Q : Machine State → Prop}
    (hQ : ∀ m', a.Holds layout m₀ m' (R.set inst.getRd v) → Q m') :
    Emits (env layout clobber) (translateMove (tr.getReg inst.getRd) (Loc.host g).op) tr m Q := by
  rw [huses]
  by_cases hrd : inst.getRd = 0
  · rw [hrd, a.src_zero]
    refine move_imm (hQ m ?_)
    rw [hrd, Regs.set_zero]
    exact h
  · rw [a.src_of_ne hrd]
    exact fromTmp h hrd hv hQ

theorem OFFSET {k : U64 → Tr Unit} {Q : Machine State → Prop}
    (h : Emits (env layout clobber) (k tr.getOffset) tr m Q) :
    Emits (env layout clobber) (TranslateInst.OFFSET >>= k) tr m Q := h

theorem addPC (h : a.Holds layout m₀ m R) (v : U64) {pc : U32}
    (hpc : m₀.world.pc + v.setWidth 32 = pc) :
    Emits (env layout clobber) (Translator.emit (.bin .add PC (.imm v))) tr m fun m' ↦
      a.Holds layout (setPc m₀ pc) m' R := by
  obtain ⟨m', hadd, hm'⟩ := exec_addPC clobber h v hpc
  exact emit rfl hadd hm'

theorem jal (huses : tr.Uses a) (hm : Ready layout m) :
    Emits (env layout clobber) (translateJAL inst) tr m fun m' ↦
      a.Holds layout (setPc m (m.world.pc + tr.getOffset.setWidth 32 + inst.getImm * 2)) m'
        ((a.regs m).set inst.getRd (m.world.pc + tr.getOffset.setWidth 32 + 4)) := by
  have hlink := setWidth_link tr m.world.pc
  have htarget := setWidth_takenOffset inst tr.getOffset m.world.pc
  have h₀ : a.Holds layout m m (a.regs m) := .refl hm
  refine OFFSET ?_
  by_cases hrd : inst.getRd = 0
  · rw [if_neg (not_not.mpr hrd), hrd, Regs.set_zero]
    exact addPC h₀ _ htarget
  · rw [if_pos hrd]
    refine RD (.seq (emit rfl (exec_mov_of_pc hm clobber) ?_))
    have h₁ := h₀.scratch (g := .rax) (by decide) (by decide) m.world.pc
    rw [huses.of_ne hrd]
    refine .seq (fromTmp h₁ hrd (look_put_self _ (by decide) _) fun m₂ h₂ ↦ .seq ?_)
    refine arith h₂.ready (by decide) (a.usable hrd) (s := .imm (tr.getOffset + 4)) (Bool.and_false _) ?_
    have hvalue : (X86.arith .add (look m₂ (a.loc inst.getRd)) ((tr.getOffset + 4).setWidth 32)).1 =
        m.world.pc + tr.getOffset.setWidth 32 + 4 := by
      rw [h₂.look hrd, Regs.get_set_self _ hrd]
      exact hlink
    rw [valueOf, hvalue]
    have h₃ := (h₂.put hrd (m.world.pc + tr.getOffset.setWidth 32 + 4)).withFlags
      (some (X86.arith .add (look m₂ (a.loc inst.getRd)) ((tr.getOffset + 4).setWidth 32)).2)
    rw [Regs.set_set] at h₃
    exact addPC h₃ _ htarget

theorem jalr (huses : tr.Uses a) (hm : Ready layout m) :
    Emits (env layout clobber) (translateJALR inst) tr m fun m' ↦
      let link := m.world.pc + tr.getOffset.setWidth 32 + 4
      a.Holds layout (setPc m ((((a.regs m).set inst.getRd link).get inst.getRs1 + inst.getImm) &&& ~~~1#32))
        m' ((a.regs m).set inst.getRd link) := by
  have h₀ : a.Holds layout m m (a.regs m) := .refl hm
  refine OFFSET (.seq (mono (addPC h₀ _ (setWidth_link tr m.world.pc)) fun m₁ h₁ ↦ ?_))
  set link := m.world.pc + tr.getOffset.setWidth 32 + 4 with hl
  have hpc : m₁.world.pc = link := by rw [h₁.world]; rfl
  refine .seq (emit rfl (exec_mov_of_pc h₁.ready clobber) ?_)
  rw [hpc]
  have h₁ := h₁.scratch (g := .rax) (by decide) (by decide) link
  refine RD (.seq (moveToRd huses h₁ (look_put_self _ (by decide) _) fun m₂ h₂ ↦ ?_))
  -- from here on the register that holds the target may be the link
  refine RS1 (.seq ?_)
  rw [huses]
  refine toTmp h₂ _ fun m₃ h₃ hv₃ ↦ .seq (onTmp h₃ (by decide) (.imm (IMM inst)) fun m₄ h₄ hv₄ ↦ ?_)
  refine .seq (onTmp h₄ (by decide) (.imm 0xfffffffe) fun m₅ h₅ hv₅ ↦ ?_)
  refine emit rfl (exec_mov_to_pc h₅.ready clobber) ?_
  have htarget : look m₅ (.host .rax) = (((a.regs m).set inst.getRd link).get inst.getRs1 +
      inst.getImm) &&& ~~~1#32 := by
    rw [hv₅, hv₄, hv₃, h₂.value]
    change (_ + (inst.getImm.signExtend 64).setWidth 32) &&& _ = _
    rw [BitFields.setWidth_signExtend_self (by decide)]
    rfl
  rw [htarget]
  exact h₅.setPc _

end Emits

def NativeJumps (layout : Layout) (clobber : Clobber) (a : Allocation) (tr : Translator) (inst : Inst)
    (m : Machine State) : Prop :=
  ∃ m', (block (env layout clobber) (emitted inst.translate tr)).run m = .ok () m' ∧
    a.guest m' = jumped inst (tr.getOffset.setWidth 32) (a.guest m)

section

variable {inst : Inst} (hcmd : inst.getCmd = .JALR)

include hcmd

theorem exec_jumps_iff (offset : U32) (s : State) :
    (inst.func_.exec inst offset).run s = .ok .endTrace (jumped inst offset s) ↔
      KeepsTarget inst offset s := by
  rw [exec_jalr hcmd, ← linkedFirst_eq_iff]
  constructor
  · exact fun h ↦ (EStateM.Result.ok.inj h).2
  · intro h
    rw [h]

theorem nativeJumps_iff {layout : Layout} {clobber : Clobber} {a : Allocation} {tr : Translator}
    {m : Machine State} (huses : tr.Uses a) (hm : Ready layout m) :
    NativeJumps layout clobber a tr inst m ↔
      KeepsTarget inst (tr.getOffset.setWidth 32) (a.guest m) := by
  have htranslate : inst.translate = translateJALR inst := by
    obtain ⟨imm, rs1, rs2, rd, c, hc⟩ := inst
    cases hcmd
    rfl
  have hjalr : Emits (env layout clobber) (translateJALR inst) tr m fun m' ↦
      a.guest m' = linkedFirst inst (tr.getOffset.setWidth 32) (a.guest m) := by
    refine (Emits.jalr huses hm).mono fun m' h ↦ ?_
    rw [h.guest, a.guest_setPc]
    rfl
  obtain ⟨m', hrun, hm'⟩ := hjalr.run
  rw [NativeJumps, htranslate, hrun, ← linkedFirst_eq_iff, ← hm']
  constructor
  · rintro ⟨m'', hrun', hg⟩
    cases hrun'
    exact hg
  · exact fun h ↦ ⟨m', rfl, h⟩

/-- Either engine jumps right unless the link is written over the target and leads elsewhere. -/
theorem jalr_jumps_iff :
    (∀ offset s, (inst.func_.exec inst offset).run s = .ok .endTrace (jumped inst offset s) ↔
      KeepsTarget inst offset s) ∧
    ∀ layout clobber a tr m, tr.Uses a → Ready layout m →
      (NativeJumps layout clobber a tr inst m ↔
        KeepsTarget inst (tr.getOffset.setWidth 32) (a.guest m)) :=
  ⟨exec_jumps_iff hcmd, fun _ _ _ _ _ ↦ nativeJumps_iff hcmd⟩

end

/-- `jalr x1, 8(x2)` -/
theorem jalr_jumps_iff_distinct : NativeJumps ⟨0, 0⟩ (fun _ _ _ ↦ 0) .slots (.init [] false)
    (genI ⟨.JALR, by decide⟩ 1 2 8) (atEntry (Regs.fill0.set 2 16)) :=
  ((jalr_jumps_iff rfl).2 _ _ _ _ _ (uses_slots _ _) (ready_atEntry _)).mpr (.inr (.inl (by decide)))

/-- `jalr x1, 0(x1)` with 8 in `x1` goes to 4. -/
theorem jalr_loses_target :
    let inst := genI ⟨.JALR, by decide⟩ 1 1 0
    let m := atEntry (Regs.fill0.set 1 8)
    (inst.func_.exec inst 0).run m.world ≠ .ok .endTrace (jumped inst 0 m.world) ∧
    ¬ NativeJumps ⟨0, 0⟩ (fun _ _ _ ↦ 0) .slots (.init [inst] false) inst m := by
  intro inst m
  constructor
  · rw [Ne, exec_jumps_iff rfl]
    decide
  · rw [nativeJumps_iff rfl (uses_slots _ _) (ready_atEntry _)]
    decide

end RiscvSim
