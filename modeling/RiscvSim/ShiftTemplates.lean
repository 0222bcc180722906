import RiscvSim.Templates

namespace RiscvSim

open Isa Ir X86 Results Translator Native TranslateInst

def shiftTypes : List Cmd := [.SLL, .SRL, .SRA]

def shiftOf : Cmd → Id
  | .SLL => .shl
  | .SRL => .shr
  | _ => .sar

def shifted (c : Cmd) (v w : U32) : U32 := shift (shiftOf c) v (w.toNat % 32)

section

variable {inst : Inst} (hcmd : inst.getCmd ∈ shiftTypes)

include hcmd

theorem exec_shiftType (offset : U32) (s : State) :
    let v := shifted inst.getCmd (s.regs.get inst.getRs1) (s.regs.get inst.getRs2)
    (inst.func_.exec inst offset).run s =
      .ok .nextInst { s with regs := s.regs.set inst.getRd v } := by
  obtain ⟨imm, rs1, rs2, rd, c, hc⟩ := inst
  simp only [shiftTypes, Inst.getCmd, List.mem_cons, List.not_mem_nil, or_false] at hcmd
  rcases hcmd with rfl | rfl | rfl
  · exact regType_run _ (Rv32i.regFunc_eq .sll _ _)
  · exact regType_run _ (Rv32i.regFunc_eq .srl _ _)
  · exact regType_run _ (Rv32i.regFunc_eq .sra _ _)

theorem translate_shiftType : inst.translate = translateShift inst (shiftOf inst.getCmd) := by
  obtain ⟨imm, rs1, rs2, rd, c, hc⟩ := inst
  simp only [shiftTypes, Inst.getCmd, List.mem_cons, List.not_mem_nil, or_false] at hcmd
  rcases hcmd with rfl | rfl | rfl <;> rfl

end

/-- A shift; what becomes of the flags depends on the count. -/
theorem exec_shift {layout : Layout} (clobber : Clobber) {m : Machine State} (hm : Ready layout m)
    {id : Id} (hid : id ∈ [Id.shl, .shr, .sar]) {l : Loc} (hl : l.Usable) {count : Operand} {k : U8}
    (hk : m.value (env layout clobber) 8 count = .ok k) :
    ∃ f, (exec (env layout clobber) (.bin id l.op count)).run m =
      .ok () ((put m l (shift id (look m l) (k.toNat % 32))).withFlags f) := by
  have hdst : m.value (env layout clobber) 32 l.op = .ok (look m l) := value_op hm (.loc l)
  have hwidth : dstWidth l.op = some 32 := by cases l <;> rfl
  have hexec : execBin (env layout clobber) m id l.op count = (do
      if k.toNat % 32 = 0 then m.assign (env layout clobber) (look m l) l.op
      else return { (← m.assign (env layout clobber) (shift id (look m l) (k.toNat % 32)) l.op) with
        flags := none }) := by
    simp only [List.mem_cons, List.not_mem_nil, or_false] at hid
    rcases hid with rfl | rfl | rfl
    all_goals
      dsimp only [execBin]
      rw [hwidth]
      dsimp only
      rw [hdst, hk]
      rfl
  by_cases hn : k.toNat % 32 = 0
  · refine ⟨(put m l (look m l)).flags, exec_bin ?_⟩
    rw [hexec, hn, shift_zero]
    exact assign_op hm hl _
  · refine ⟨none, exec_bin ?_⟩
    rw [hexec, if_neg hn, assign_op hm hl]
    rfl

theorem exec_shift_cl {layout : Layout} (clobber : Clobber) {m : Machine State} (hm : Ready layout m)
    {id : Id} (hid : id ∈ [Id.shl, .shr, .sar]) {l : Loc} (hl : l.Usable) :
    ∃ f, (exec (env layout clobber) (.bin id l.op (.reg .rcx 8))).run m = .ok ()
      ((put m l (shift id (look m l) ((look m (.host .rcx)).toNat % 32))).withFlags f) := by
  have hcount : (m.get .rcx 8).toNat % 32 = (look m (.host .rcx)).toNat % 32 := by
    simp only [look, Machine.get, BitVec.toNat_setWidth]
    omega
  rw [← hcount]
  exact exec_shift clobber hm hid hl rfl

namespace Emits

variable {layout : Layout} {clobber : Clobber} {a : Allocation} {tr : Translator} {inst : Inst}
  {m m₀ : Machine State} {R : Regs} {id : Id} (hid : id ∈ [Id.shl, .shr, .sar])

include hid

theorem shift_cl (hm : Ready layout m) {l : Loc} (hl : l.Usable) {Q : Machine State → Prop}
    (h : ∀ f, Q ((put m l (X86.shift id (look m l) ((look m (.host .rcx)).toNat % 32))).withFlags f)) :
    Emits (env layout clobber) (Translator.emit (.bin id l.op (.reg .rcx 8))) tr m Q := by
  obtain ⟨f, hf⟩ := exec_shift_cl clobber hm hid hl
  refine emit ?_ hf (h f)
  simp only [List.mem_cons, List.not_mem_nil, or_false] at hid
  rcases hid with rfl | rfl | rfl <;> cases l <;> rfl

variable (huses : tr.Uses a) (h : a.Holds layout m₀ m R) (hrd : inst.getRd ≠ 0)

include huses h hrd

variable (clobber) in
/-- The shift of `rd` by `rs2`, with `ecx` saved around it. -/
theorem shift_in_place : Emits (env layout clobber) (do
      translateMove TMP1 (.reg .rcx 32)
      translateMove (.reg .rcx 32) (← TranslateInst.RS2 inst)
      Translator.emit (.bin id (a.loc inst.getRd).op (.reg .rcx 8))
      translateMove (.reg .rcx 32) TMP1) tr m fun m' ↦ a.Holds layout m₀ m'
      (R.set inst.getRd (if a.loc inst.getRd = .host .rcx then R.get inst.getRd
        else X86.shift id (R.get inst.getRd) ((R.get inst.getRs2).toNat % 32))) := by
  have hu := a.usable hrd
  have hne : a.loc inst.getRd ≠ .host .rax := a.loc_ne_host (by decide) _
  refine .seq (move (l := .host .rax) (s := .loc (.host .rcx)) h.ready (by decide) rfl fun f₁ ↦ ?_)
  have h₁ := (h.scratch (g := .rax) (by decide) (by decide) (look m (.host .rcx))).withFlags f₁
  have e₁ := look_wrote m f₁ (l := .host .rax) (by decide) (look m (.host .rcx))
  rw [valueOf]
  generalize (put m (.host .rax) (look m (.host .rcx))).withFlags f₁ = m₁ at h₁ e₁ ⊢
  refine RS2 (.seq ?_)
  rw [huses]
  refine move (l := .host .rcx) h₁.ready (by decide) rfl fun f₂ ↦ ?_
  rw [h₁.value]
  have k₂ := (h₁.toKeeps.put (l := .host .rcx) (by decide) (R.get inst.getRs2)).withFlags f₂
  have e₂ := look_wrote m₁ f₂ (l := .host .rcx) (by decide) (R.get inst.getRs2)
  generalize (put m₁ (.host .rcx) (R.get inst.getRs2)).withFlags f₂ = m₂ at k₂ e₂ ⊢
  refine .seq (shift_cl hid k₂.ready hu fun f₃ ↦ ?_)
  rw [e₂ (.host .rcx), if_pos rfl]
  generalize hv : X86.shift id (look m₂ (a.loc inst.getRd)) ((R.get inst.getRs2).toNat % 32) = v
  have k₃ := (k₂.put hu v).withFlags f₃
  have e₃ := look_wrote m₂ f₃ hu v
  generalize (put m₂ (a.loc inst.getRd) v).withFlags f₃ = m₃ at k₃ e₃ ⊢
  refine move (l := .host .rcx) (s := .loc (.host .rax)) k₃.ready (by decide) rfl fun f₄ ↦ ?_
  have k₄ := (k₃.put (l := .host .rcx) (by decide) (look m₃ (.host .rax))).withFlags f₄
  have e₄ := look_wrote m₃ f₄ (l := .host .rcx) (by decide) (look m₃ (.host .rax))
  refine .of_look k₄ fun r hr ↦ ?_
  have hrax : look m₃ (.host .rax) = look m (.host .rcx) := by
    rw [e₃, if_neg hne.symm, e₂, if_neg (by decide), e₁, if_pos rfl]
  rw [valueOf, e₄, hrax]
  by_cases hrr : r = inst.getRd
  · subst hrr
    rw [Regs.get_set_self _ hr]
    by_cases hl : a.loc inst.getRd = .host .rcx
    · rw [if_pos hl, if_pos hl, ← hl, h.look hr]
    · rw [if_neg hl, if_neg hl, e₃, if_pos rfl, ← hv, e₂, if_neg hl, h₁.look hr]
  · have hloc : a.loc r ≠ a.loc inst.getRd := fun he ↦ hrr (a.inj _ _ he)
    rw [Regs.get_set_of_ne _ hrr]
    split
    · next hl => rw [← hl, h.look hr]
    · next hl => rw [e₃, if_neg hloc, e₂, if_neg hl, h₁.look hr]

theorem shift : Emits (env layout clobber) (translateShift inst id) tr m fun m' ↦ a.Holds layout m₀ m'
    (R.set inst.getRd
      (if inst.getRs2 = 0 ∨ a.loc inst.getRd = .host .rcx then R.get inst.getRs1
      else X86.shift id (R.get inst.getRs1)
        ((if inst.getRs2 = inst.getRd then R.get inst.getRs1 else R.get inst.getRs2).toNat % 32))) := by
  have tail : ∀ m₁, a.Holds layout m₀ m₁ (R.set inst.getRd (R.get inst.getRs1)) →
      Emits (env layout clobber) (if inst.getRs2 = 0 then Pure.pure () else do
        translateMove TMP1 (.reg .rcx 32)
        translateMove (.reg .rcx 32) (← TranslateInst.RS2 inst)
        Translator.emit (.bin id (a.loc inst.getRd).op (.reg .rcx 8))
        translateMove (.reg .rcx 32) TMP1) tr m₁ fun m' ↦ a.Holds layout m₀ m'
        (R.set inst.getRd
          (if inst.getRs2 = 0 ∨ a.loc inst.getRd = .host .rcx then R.get inst.getRs1
          else X86.shift id (R.get inst.getRs1)
            ((if inst.getRs2 = inst.getRd then R.get inst.getRs1 else R.get inst.getRs2).toNat % 32))) := by
    intro m₁ h₁
    split
    · next hz =>
      rw [if_pos (.inl hz)]
      exact pure h₁
    · next hz =>
      have hrs2 : (R.set inst.getRd (R.get inst.getRs1)).get inst.getRs2 =
          if inst.getRs2 = inst.getRd then R.get inst.getRs1 else R.get inst.getRs2 := by
        split
        · next he => rw [he, Regs.get_set_self _ hrd]
        · next he => rw [Regs.get_set_of_ne _ he]
      have hshift := shift_in_place clobber hid huses h₁ hrd
      rw [Regs.set_set, Regs.get_set_self _ hrd, hrs2] at hshift
      simp only [hz, false_or]
      exact hshift
  rw [translateShift, if_neg hrd]
  refine RD (RS1 ?_)
  rw [huses.of_ne hrd, huses]
  have hv := h.value inst.getRs1
  dsimp only
  by_cases hmem : (a.loc inst.getRd).op.isMem = true
  · have htmp : TMP1 ≠ (a.src inst.getRs1).op := by
      intro he
      cases hs : a.src inst.getRs1 with
      | imm v =>
        rw [hs] at he
        cases he
      | loc l =>
        rw [hs] at he
        rw [← Loc.op_inj.mp (show (Loc.host .rax).op = l.op from he)] at hs
        exact a.src_ne_host (by decide) _ hs
    simp only [hmem, if_true, ne_eq, htmp, not_false_eq_true]
    refine .seq (move (l := .host .rax) h.ready (by decide) rfl fun f ↦ ?_)
    rw [hv]
    have ht := (h.scratch (g := .rax) (by decide) (by decide) (R.get inst.getRs1)).withFlags f
    refine .seq (move (s := .loc (.host .rax)) ht.ready (a.usable hrd) (Bool.and_false _) fun f' ↦ ?_)
    rw [valueOf, look_withFlags, look_put_self _ (by decide)]
    exact tail _ ((ht.put hrd _).withFlags f')
  · simp only [hmem, Bool.false_eq_true, if_false, ne_eq]
    by_cases hsame : (a.loc inst.getRd).op = (a.src inst.getRs1).op
    · have hrs := ((a.op_eq_iff _ _).mp hsame).1
      rw [if_neg (not_not.mpr hsame)]
      refine tail _ ?_
      rw [hrs, Regs.set_get_self]
      exact h
    · rw [if_pos hsame]
      refine .seq (move h.ready (a.usable hrd) ?_ fun f ↦ ?_)
      · rw [Bool.eq_false_iff.mpr hmem, Bool.false_and]
      · rw [hv]
        exact tail _ ((h.put hrd _).withFlags f)

end Emits

theorem shiftOf_mem (c : Cmd) : shiftOf c ∈ [Id.shl, .shr, .sar] := by
  unfold shiftOf
  split <;> decide

/-- Where `ecx` is saved over the result, or `rs1` moved over the count, the shift is right only if
it makes no difference. -/
def ShiftKept (a : Allocation) (inst : Inst) (v w : U32) : Prop :=
  if a.loc inst.getRd = .host .rcx then w.toNat % 32 = 0 ∨ Settled (shiftOf inst.getCmd) v
  else inst.getRs2 = inst.getRd → v.toNat % 32 = w.toNat % 32 ∨
    Settled (shiftOf inst.getCmd) (shift (shiftOf inst.getCmd) v (min (v.toNat % 32) (w.toNat % 32)))

section

variable {layout : Layout} {clobber : Clobber} {a : Allocation} {tr : Translator} {inst : Inst}
  {m : Machine State} (hcmd : inst.getCmd ∈ shiftTypes) (huses : tr.Uses a) (hm : Ready layout m)

include hcmd huses hm

theorem shiftType_template :
    Emits (env layout clobber) inst.translate tr m fun m' ↦ a.Holds layout m m'
      ((a.regs m).set inst.getRd
        (if inst.getRs2 = 0 ∨ a.loc inst.getRd = .host .rcx then (a.regs m).get inst.getRs1
        else shifted inst.getCmd ((a.regs m).get inst.getRs1)
          (if inst.getRs2 = inst.getRd then (a.regs m).get inst.getRs1
          else (a.regs m).get inst.getRs2))) := by
  rw [translate_shiftType hcmd]
  by_cases hrd : inst.getRd = 0
  · rw [translateShift, if_pos hrd, hrd, Regs.set_zero]
    exact .pure (.refl hm)
  · exact Emits.shift (shiftOf_mem _) huses (.refl hm) hrd

/-- The templates of SLL, SRL and SRA are right unless `rd` lives in `ecx` or is the register of the
count, and there where the shift makes no difference. -/
theorem shiftType_agrees_iff (offset : U32) :
    Agrees layout clobber a tr inst offset m ↔ inst.getRd = 0 ∨ inst.getRs2 = 0 ∨
      ShiftKept a inst ((a.regs m).get inst.getRs1) ((a.regs m).get inst.getRs2) := by
  rw [agrees_iff (shiftType_template hcmd huses hm) (exec_shiftType hcmd offset _)]
  change _ = _ ∨ _ = shifted _ ((a.regs m).get _) ((a.regs m).get _) ↔ _
  refine or_congr_right ?_
  generalize (a.regs m).get inst.getRs1 = v
  have hzero : (a.regs m).get 0 = 0 := (a.regs m).get_zero
  by_cases hrs2 : inst.getRs2 = 0
  · have hs : shifted inst.getCmd v 0 = v := shift_zero _ v
    rw [if_pos (.inl hrs2), hrs2, hzero, hs]
    simp
  · simp only [hrs2, false_or]
    rw [ShiftKept]
    split
    · rw [eq_comm]
      exact shift_eq_self_iff _ v
    · by_cases hrd : inst.getRs2 = inst.getRd
      · rw [if_pos hrd]
        simp only [hrd, true_imp_iff]
        exact shift_eq_shift_iff _ v _ _
      · rw [if_neg hrd]
        simp [hrd]

end

/-- `srl x3, x1, x2` with `x1 = 0x90` and `x2 = 4` -/
theorem shiftType_agrees_iff_srl :
    Agrees ⟨0, 0⟩ (fun _ _ _ ↦ 0) .slots (.init [] false) (genR ⟨.SRL, by decide⟩ 3 1 2) 0
      (atEntry ((Regs.fill0.set 1 0x90).set 2 4)) := by
  refine (shiftType_agrees_iff (by decide) (uses_slots _ _) (ready_atEntry _) 0).mpr (.inr (.inr ?_))
  rw [ShiftKept, if_neg (by decide)]
  exact fun h ↦ absurd h (by decide)

/-- `sll x3, x1, x3` with `x1 = 1` and `x3 = 4`: the count is gone when it is read. -/
theorem sll_overwrites_count :
    let inst := genR ⟨.SLL, by decide⟩ 3 1 3
    let tr := Translator.init [inst, genJ ⟨.JAL, by decide⟩ 0 4] false
    let m := atEntry ((Regs.fill0.set 1 1).set 3 4)
    tr.Uses .slots ∧ Ready ⟨0, 0⟩ m ∧
      ¬Agrees ⟨0, 0⟩ (fun _ _ _ ↦ 0) .slots tr inst 0 m := by
  intro inst tr m
  have huses : tr.Uses .slots := uses_slots _ _
  have hm : Ready ⟨0, 0⟩ m := ready_atEntry _
  have hcmd : inst.getCmd ∈ shiftTypes := by decide
  refine ⟨huses, hm, ?_⟩
  rw [agrees_iff (shiftType_template hcmd huses hm) (exec_shiftType hcmd 0 _)]
  decide

end RiscvSim
