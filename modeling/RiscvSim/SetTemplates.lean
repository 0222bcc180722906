import RiscvSim.Templates

namespace RiscvSim

open Isa Ir X86 Results Translator Native TranslateInst BitFields

def setTypes : List Cmd := [.SLT, .SLTU, .SLTI, .SLTIU]

def condOf : Cmd → X86.Cond
  | .SLT | .SLTI => .l
  | _ => .b

def immTypes : List Cmd := [.SLTI, .SLTIU]

/-- The value the first operand is compared with. -/
def comparand (inst : Inst) (R : Regs) : U32 :=
  if inst.getCmd ∈ immTypes then inst.getImm else R.get inst.getRs2

def truth (b : Bool) : U32 := if b then 1 else 0

def less (c : Cmd) (v w : U32) : Bool := (condOf c).holds (arith .cmp v w).2

theorem exec_setType {inst : Inst} (hcmd : inst.getCmd ∈ setTypes) (offset : U32) (s : State) :
    let v := truth (less inst.getCmd (s.regs.get inst.getRs1) (comparand inst s.regs))
    (inst.func_.exec inst offset).run s =
      .ok .nextInst { s with regs := s.regs.set inst.getRd v } := by
  obtain ⟨imm, rs1, rs2, rd, c, hc⟩ := inst
  simp only [setTypes, Inst.getCmd, List.mem_cons, List.not_mem_nil, or_false] at hcmd
  rcases hcmd with rfl | rfl | rfl | rfl
  · exact regType_run _ (congrArg (fun b ↦ Except.ok (truth b)) (holds_l _ _).symm)
  · exact regType_run _ (congrArg (fun b ↦ Except.ok (truth b)) (holds_b _ _).symm)
  · rw [comparand, if_pos (by simp [Inst.getCmd, immTypes])]
    change (ExecInst.execSLTI _).run s = _
    exact immType_run _ (congrArg (fun b ↦ Except.ok (truth b)) (holds_l _ _).symm)
  · rw [comparand, if_pos (by simp [Inst.getCmd, immTypes])]
    change (ExecInst.execSLTIU _).run s = _
    exact immType_run _ (congrArg (fun b ↦ Except.ok (truth b)) (holds_b _ _).symm)

/-- The templates of SLTI and SLTIU, which differ in how the immediate is widened. -/
def translateSetImm (inst : Inst) (cond : X86.Cond) (v : U64) : Tr Unit := do
  emit (.bin .cmp (← RS1 inst) (.imm v))
  emit (.bin .mov (← RD inst) (.imm 0))
  emit (.set cond (← RD inst))

def widened (inst : Inst) : U64 := if inst.getCmd = .SLTI then IMM inst else inst.getImm.setWidth 64

theorem translate_setType {inst : Inst} (hcmd : inst.getCmd ∈ setTypes) : inst.translate =
    if inst.getCmd ∈ immTypes then translateSetImm inst (condOf inst.getCmd) (widened inst)
    else translateSet inst (condOf inst.getCmd) := by
  obtain ⟨imm, rs1, rs2, rd, c, hc⟩ := inst
  simp only [setTypes, Inst.getCmd, List.mem_cons, List.not_mem_nil, or_false] at hcmd
  rcases hcmd with rfl | rfl | rfl | rfl <;> rfl

theorem setWidth_widened (inst : Inst) : (widened inst).setWidth 32 = inst.getImm := by
  rw [widened]
  split
  · exact setWidth_signExtend_self (by decide) _
  · exact setWidth_setWidth_self (by decide) _

section

variable {layout : Layout} {clobber : Clobber} {m : Machine State} (hm : Ready layout m)

include hm

theorem assign_cleared {l : Loc} (hl : l.Usable) (v : U8) :
    (put m l 0).assign (env layout clobber) v l.op = .ok (put m l (v.setWidth 32)) := by
  have hzero : ∀ n, (0#n >>> 8) <<< 8 ||| v.setWidth n = v.setWidth n := by
    intro n
    rw [BitVec.zero_ushiftRight, BitVec.zero_shiftLeft, BitVec.zero_or]
  cases l with
  | host g =>
    change Except.ok ((m.set g 0#32).set g v) = .ok (m.set g (v.setWidth 32))
    have hw : (v.setWidth 32).setWidth 64 = v.setWidth 64 := by
      apply BitVec.eq_of_toNat_eq
      simp only [BitVec.toNat_setWidth]
      omega
    simp only [Machine.set, Function.update_self, Function.update_idem]
    rw [if_neg (by decide), if_pos le_rfl, if_pos le_rfl, hw]
    exact congrArg (fun x ↦ Except.ok { m with regs := Function.update m.regs g x }) (hzero 64)
  | slot r =>
    change (store layout ((put m (.slot r) 0).regs .rdi + _) v (put m (.slot r) 0).world).map _ = _
    rw [hm.put hl 0, store, placeOf_slot]
    dsimp only
    have hold : (put m (.slot r) 0).world.regs.get r = 0#32 := m.world.regs.get_set_self hl 0
    rw [if_pos ⟨by decide, hl⟩, hold, replace, if_neg (by decide), hzero 32]
    simp only [put, Except.map, Regs.set_set]

theorem exec_set_cleared {l : Loc} (hl : l.Usable) (c : X86.Cond) {f : Flags} (hf : m.flags = some f) :
    (exec (env layout clobber) (.set c l.op)).run (put m l 0) =
      .ok () (put m l (truth (c.holds f))) := by
  have hflags : (put m l 0).flags = some f := by
    rw [← hf]
    cases l <;> rfl
  apply exec_set
  rw [execSet, hflags]
  dsimp only
  rw [assign_cleared hm hl, truth]
  split <;> rfl

end

namespace Emits

variable {layout : Layout} {clobber : Clobber} {a : Allocation} {tr : Translator} {inst : Inst}
  {m m₀ : Machine State} {R : Regs} {cond : X86.Cond}

theorem set_flag_zero (huses : tr.Uses a) (h : a.Holds layout m₀ m R) (hrd : inst.getRd = 0) (v : U32) :
    Emits (env layout clobber) (do
      Translator.emit (.bin .mov (← TranslateInst.RD inst) (.imm 0))
      Translator.emit (.set cond (← TranslateInst.RD inst))) tr m
      fun m' ↦ a.Holds layout m₀ m' (R.set inst.getRd v) := by
  rw [hrd, Regs.set_zero]
  have hop : tr.getReg inst.getRd = .imm 0 := by
    rw [huses, hrd]
    rfl
  refine RD (.seq (emit_none ?_ (RD (emit_none ?_ h))))
  · rw [hop]
    rfl
  · rw [hop]
    rfl

theorem set_flag (huses : tr.Uses a) (h : a.Holds layout m₀ m R) {f : Flags} (hf : m.flags = some f) :
    Emits (env layout clobber) (do
      Translator.emit (.bin .mov (← TranslateInst.RD inst) (.imm 0))
      Translator.emit (.set cond (← TranslateInst.RD inst))) tr m
      fun m' ↦ a.Holds layout m₀ m' (R.set inst.getRd (truth (cond.holds f))) := by
  by_cases hrd : inst.getRd = 0
  · exact set_flag_zero huses h hrd _
  · refine RD (.seq ?_)
    rw [huses.of_ne hrd]
    refine mov (s := .imm 0) h.ready (a.usable hrd) (Bool.and_false _) (RD ?_)
    rw [huses.of_ne hrd]
    refine emit ?_ (exec_set_cleared h.ready (a.usable hrd) cond hf) (h.put hrd _)
    cases a.loc inst.getRd <;> rfl

theorem set (huses : tr.Uses a) (h : a.Holds layout m₀ m R) :
    Emits (env layout clobber) (translateSet inst cond) tr m fun m' ↦ a.Holds layout m₀ m'
      (R.set inst.getRd
        (truth (cond.holds (X86.arith .cmp (R.get inst.getRs1) (R.get inst.getRs2)).2))) := by
  refine firstOperand huses h fun g m' h' hg ↦ RS2 (.seq ?_)
  rw [huses]
  refine cmp (l := .host g) h'.ready rfl ?_
  rw [hg, h'.value]
  exact set_flag huses (h'.withFlags _) rfl

theorem setImm (huses : tr.Uses a) (h : a.Holds layout m₀ m R) (hrs1 : inst.getRs1 ≠ 0) {v : U64}
    {w : U32} (hv : v.setWidth 32 = w) :
    Emits (env layout clobber) (translateSetImm inst cond v) tr m fun m' ↦ a.Holds layout m₀ m'
      (R.set inst.getRd (truth (cond.holds (X86.arith .cmp (R.get inst.getRs1) w).2))) := by
  refine RS1 (.seq ?_)
  rw [huses.of_ne hrs1]
  refine cmp (s := .imm v) h.ready (Bool.and_false _) ?_
  rw [h.look hrs1, valueOf, hv]
  exact set_flag huses (h.withFlags _) rfl

/-- A comparison of two constants is not emitted: the flags of earlier code decide. -/
theorem setImm_stale (huses : tr.Uses a) (h : a.Holds layout m₀ m R) (hrs1 : inst.getRs1 = 0) (v : U64)
    {f : Flags} (hf : m.flags = some f) :
    Emits (env layout clobber) (translateSetImm inst cond v) tr m fun m' ↦ a.Holds layout m₀ m'
      (R.set inst.getRd (truth (cond.holds f))) := by
  refine RS1 (.seq ?_)
  rw [hrs1]
  exact emit_none rfl (set_flag huses h hf)

end Emits

theorem truth_inj {b b' : Bool} (h : truth b = truth b') : b = b' := by
  cases b <;> cases b' <;> first | rfl | cases h

/-- Flags that answer a comparison either way. -/
def flagsFor (b : Bool) : Flags := ⟨false, b, b, false⟩

theorem holds_flagsFor (c : Cmd) (b : Bool) : (condOf c).holds (flagsFor b) = b := by
  unfold condOf
  split <;> cases b <;> rfl

section

variable {layout : Layout} (clobber : Clobber) {a : Allocation} {tr : Translator} {inst : Inst}
  {m : Machine State} (hcmd : inst.getCmd ∈ setTypes) (huses : tr.Uses a) (hm : Ready layout m)

include hcmd huses hm

theorem setType_template
    (hok : inst.getCmd ∉ immTypes ∨ inst.getRs1 ≠ 0 ∨ inst.getRd = 0) :
    Emits (env layout clobber) inst.translate tr m fun m' ↦ a.Holds layout m m'
      ((a.regs m).set inst.getRd (truth
        (less inst.getCmd ((a.regs m).get inst.getRs1) (comparand inst (a.regs m))))) := by
  have hrefl := Allocation.Holds.refl (a := a) hm
  rw [translate_setType hcmd]
  split
  · next himm =>
    rw [comparand, if_pos himm]
    by_cases hrs1 : inst.getRs1 = 0
    · have hrd : inst.getRd = 0 := by tauto
      refine Emits.RS1 (Emits.seq ?_)
      rw [hrs1]
      exact .emit_none rfl (.set_flag_zero huses hrefl hrd _)
    · exact .setImm huses hrefl hrs1 (setWidth_widened inst)
  · next himm =>
    rw [comparand, if_neg himm]
    exact .set huses hrefl

theorem setType_template_stale (himm : inst.getCmd ∈ immTypes) (hrs1 : inst.getRs1 = 0) {f : Flags}
    (hf : m.flags = some f) :
    Emits (env layout clobber) inst.translate tr m fun m' ↦ a.Holds layout m m'
      ((a.regs m).set inst.getRd (truth ((condOf inst.getCmd).holds f))) := by
  rw [translate_setType hcmd, if_pos himm]
  exact .setImm_stale huses (.refl hm) hrs1 _ hf

/-- The comparisons are right whatever the flags were, except for SLTI and SLTIU on `x0`: these
compare two constants, which is not emitted. -/
theorem setType_agrees_iff (offset : U32) :
    (∀ f, Agrees layout clobber a tr inst offset (m.withFlags f)) ↔
      inst.getCmd ∉ immTypes ∨ inst.getRs1 ≠ 0 ∨ inst.getRd = 0 := by
  constructor
  · intro h
    by_contra hbad
    simp only [not_or, not_not] at hbad
    obtain ⟨himm, hrs1, hrd⟩ := hbad
    -- flags that say the opposite of the comparison
    let right := less inst.getCmd ((a.regs m).get inst.getRs1) (comparand inst (a.regs m))
    have hstale := setType_template_stale clobber hcmd huses
      (hm.withFlags (some (flagsFor !right))) himm hrs1 rfl
    rcases (agrees_iff hstale (exec_setType hcmd offset _)).mp (h _) with hz | hv
    · exact hrd hz
    · have hbool := truth_inj hv
      rw [holds_flagsFor] at hbool
      change (!right) = less _ ((a.regs _).get _) (comparand inst (a.regs _)) at hbool
      rw [a.regs_withFlags] at hbool
      exact absurd hbool (Bool.not_ne_self right)
  · intro hok f
    refine (agrees_iff (setType_template clobber hcmd huses (hm.withFlags f) hok)
      (exec_setType hcmd offset _)).mpr (.inr rfl)

end

/-- `slt x3, x1, x2` with `x1 = -1` and `x2 = 1` -/
theorem setType_agrees_iff_slt :
    Agrees ⟨0, 0⟩ (fun _ _ _ ↦ 0) .slots (.init [] false) (genR ⟨.SLT, by decide⟩ 3 1 2) 0
      ((atEntry ((Regs.fill0.set 1 (-1)).set 2 1)).withFlags (some ⟨true, true, true, true⟩)) :=
  (setType_agrees_iff _ (by decide) (uses_slots _ _) (ready_atEntry _) 0).mpr (.inl (by decide)) _

/-- `slti x1, x0, 1` at the start of a trace: the flags are those of the instruction count, and
`x1` becomes 0. -/
theorem slti_stale :
    let inst := genI ⟨.SLTI, by decide⟩ 1 0 1
    let tr := Translator.init [inst, genJ ⟨.JAL, by decide⟩ 0 4] false
    let m := (atEntry .fill0).withFlags (some (arith .add 0#64 2#64).2)
    tr.Uses .slots ∧ Ready ⟨0, 0⟩ m ∧
      ¬Agrees ⟨0, 0⟩ (fun _ _ _ ↦ 0) .slots tr inst 0 m := by
  intro inst tr m
  have huses : tr.Uses .slots := uses_slots _ _
  have hm : Ready ⟨0, 0⟩ m := ready_atEntry .fill0
  have hcmd : inst.getCmd ∈ setTypes := by decide
  refine ⟨huses, hm, ?_⟩
  rw [agrees_iff (setType_template_stale _ hcmd huses hm (by decide) rfl rfl)
    (exec_setType hcmd 0 _)]
  decide

end RiscvSim
