import RiscvSim.Templates

namespace RiscvSim

open Isa Ir X86 Results Translator Native TranslateInst

def regTypes : List Cmd := [.ADD, .SUB, .XOR, .OR, .AND]

def idOf : Cmd → Id
  | .ADD => .add
  | .SUB => .sub
  | .XOR => .xor
  | .OR => .or
  | _ => .and

theorem idOf_mem (c : Cmd) : idOf c ∈ [Id.add, .sub, .and, .or, .xor] := by
  unfold idOf
  split <;> decide

def combine (c : Cmd) (v w : U32) : U32 := (arith (idOf c) v w).1

section

variable {inst : Inst} (hcmd : inst.getCmd ∈ regTypes)

include hcmd

theorem exec_regType (offset : U32) (s : State) : (inst.func_.exec inst offset).run s =
    let v := combine inst.getCmd (s.regs.get inst.getRs1) (s.regs.get inst.getRs2)
    .ok .nextInst { s with regs := s.regs.set inst.getRd v } := by
  obtain ⟨imm, rs1, rs2, rd, c, hc⟩ := inst
  simp only [regTypes, Inst.getCmd, List.mem_cons, List.not_mem_nil, or_false] at hcmd
  rcases hcmd with rfl | rfl | rfl | rfl | rfl
  all_goals exact regType_run _ rfl

theorem translate_regType : inst.translate =
    if inst.getCmd = .ADD then translateADD inst else translateRegType inst (idOf inst.getCmd) := by
  obtain ⟨imm, rs1, rs2, rd, c, hc⟩ := inst
  simp only [regTypes, Inst.getCmd, List.mem_cons, List.not_mem_nil, or_false] at hcmd
  rcases hcmd with rfl | rfl | rfl | rfl | rfl <;> rfl

end

/-- `translateRegType` emits an operation on two memory operands. -/
def Lost (tr : Translator) (inst : Inst) : Prop :=
  (tr.getReg inst.getRd).isMem = true ∧ (tr.getReg inst.getRs1).isMem = false ∧
    (tr.getReg inst.getRs2).isMem = true ∧ tr.getReg inst.getRd ≠ tr.getReg inst.getRs2

instance (tr : Translator) (inst : Inst) : Decidable (Lost tr inst) := by
  unfold Lost
  infer_instance

theorem Loc.isReg_op (l : Loc) : l.op.isReg = !l.op.isMem := by cases l <;> rfl

namespace Emits

variable {layout : Layout} {clobber : Clobber} {a : Allocation} {tr : Translator} {inst : Inst}
  {m m₀ : Machine State} {R : Regs} {id : Id}

theorem regType_zero (hrd : inst.getRd = 0) {Q : Machine State → Prop} (h : Q m) :
    Emits (env layout clobber) (translateRegType inst id) tr m Q := by
  rw [translateRegType, if_pos hrd]
  exact pure h

variable (hid : id ∈ [Id.add, .sub, .and, .or, .xor]) (h : a.Holds layout m₀ m R)
  (hrd : inst.getRd ≠ 0)

include hid h hrd

theorem regType_in_place {s : Src} (hs : ((a.loc inst.getRd).op.isMem && s.op.isMem) = false)
    {v w : U32} (hv : R.get inst.getRd = v) (hw : valueOf m s = w) :
    Emits (env layout clobber) (Translator.emit (.bin id (a.loc inst.getRd).op s.op)) tr m
      fun m' ↦ a.Holds layout m₀ m' (R.set inst.getRd (X86.arith id v w).1) := by
  refine arith h.ready hid (a.usable hrd) hs ?_
  rw [h.look hrd, hv, hw]
  exact (h.put hrd _).withFlags _

theorem regType (huses : tr.Uses a) (hlost : ¬Lost tr inst) :
    Emits (env layout clobber) (translateRegType inst id) tr m fun m' ↦ a.Holds layout m₀ m'
      (R.set inst.getRd (X86.arith id (R.get inst.getRs1) (R.get inst.getRs2)).1) := by
  rw [Lost, huses.of_ne hrd, huses, huses] at hlost
  rw [translateRegType, if_neg hrd]
  refine RD (RS1 (RS2 ?_))
  rw [huses.of_ne hrd, huses, huses]
  have hv1 := h.value inst.getRs1
  have hv2 := h.value inst.getRs2
  split
  · next hsame =>
    have hv : R.get inst.getRd = R.get inst.getRs1 := by rw [((a.op_eq_iff _ _).mp hsame).1]
    split
    · next hreg => exact regType_in_place hid h hrd (mem_and_mem_of_reg hreg) hv hv2
    · -- the second operand goes through the temporary
      refine .seq (toTmp h _ fun m' h' hv' ↦ ?_)
      exact regType_in_place (s := .loc (.host .rax)) hid h' hrd (Bool.and_false _) hv (hv'.trans hv2)
  · split
    · next hcond =>
      obtain ⟨hne, hreg⟩ := hcond
      have hrs : inst.getRs2 ≠ inst.getRd := fun he ↦ hne ((a.op_eq_iff _ _).mpr ⟨he, hrd⟩)
      have h1 : ((a.loc inst.getRd).op.isMem && (a.src inst.getRs1).op.isMem) = false := by
        rw [Loc.isReg_op] at hreg
        cases hd : (a.loc inst.getRd).op.isMem with
        | false => rfl
        | true => simpa [hd] using hreg
      have h2 : ((a.loc inst.getRd).op.isMem && (a.src inst.getRs2).op.isMem) = false := by
        cases hd : (a.loc inst.getRd).op.isMem with
        | false => rfl
        | true =>
          rw [hd] at h1
          cases h2 : (a.src inst.getRs2).op.isMem with
          | false => rfl
          | true => exact absurd ⟨hd, h1, h2, hne⟩ hlost
      refine .seq (move h.ready (a.usable hrd) h1 fun f ↦ ?_)
      have hd := (h.put hrd (valueOf m (a.src inst.getRs1))).withFlags f
      refine mono (regType_in_place hid hd hrd h2 (Regs.get_set_self _ hrd _) (hd.value _)) ?_
      intro m' hm'
      rw [Regs.set_set, Regs.get_set_of_ne _ hrs, hv1] at hm'
      exact hm'
    · -- both operands go through the temporary
      refine .seq (toTmp h _ fun m₁ h₁ hv₁ ↦ .seq (onTmp h₁ hid _ fun m₂ h₂ hv₂ ↦ ?_))
      rw [hv₁, hv1, h₁.value] at hv₂
      exact fromTmp h₂ hrd hv₂ fun _ h' ↦ h'

theorem regType_lost (huses : tr.Uses a) (hlost : Lost tr inst) :
    Emits (env layout clobber) (translateRegType inst id) tr m fun m' ↦ a.Holds layout m₀ m'
      (R.set inst.getRd (R.get inst.getRs1)) := by
  rw [Lost, huses.of_ne hrd, huses, huses] at hlost
  obtain ⟨hd, h1, h2, hne⟩ := hlost
  rw [translateRegType, if_neg hrd]
  refine RD (RS1 (RS2 ?_))
  rw [huses.of_ne hrd, huses, huses]
  have hdiff : (a.loc inst.getRd).op ≠ (a.src inst.getRs1).op := by
    intro he
    rw [← he, hd] at h1
    cases h1
  rw [if_neg hdiff, if_pos ⟨hne, by rw [h1, Bool.not_false, Bool.or_true]⟩]
  have hmem : ((a.loc inst.getRd).op.isMem && (a.src inst.getRs1).op.isMem) = false := by
    rw [h1, Bool.and_false]
  refine .seq (move h.ready (a.usable hrd) hmem fun f ↦ ?_)
  refine emit_none ?_ ?_
  · rw [encodable_bin (mem_of_arith hid), hd, h2]
    rfl
  · rw [h.value]
    exact (h.put hrd _).withFlags f

variable (clobber) in
theorem regType_effect (huses : tr.Uses a) :
    Emits (env layout clobber) (translateRegType inst id) tr m fun m' ↦ a.Holds layout m₀ m'
      (R.set inst.getRd (if Lost tr inst then R.get inst.getRs1
        else (X86.arith id (R.get inst.getRs1) (R.get inst.getRs2)).1)) := by
  split
  · next hlost => exact regType_lost hid h hrd huses hlost
  · next hlost => exact regType hid h hrd huses hlost

omit hid in
/-- After its shortcut for `x0` the template of ADD goes on with the general one. -/
theorem add_effect (huses : tr.Uses a) :
    Emits (env layout clobber) (translateADD inst) tr m fun m' ↦ a.Holds layout m₀ m'
      (R.set inst.getRd (if Lost tr inst then R.get inst.getRs1
        else R.get inst.getRs1 + R.get inst.getRs2)) := by
  rw [translateADD]
  split
  · next hz =>
    have hcopy : ∀ r : Reg, (r = inst.getRs1 ∧ inst.getRs2 = 0 ∨ r = inst.getRs2 ∧ inst.getRs1 = 0) →
        Emits (env layout clobber) (TranslateInst.moveVia (tr.getReg inst.getRd) (tr.getReg r)) tr m
          fun m₁ ↦ Emits (env layout clobber) (translateRegType inst .add) tr m₁
            fun m' ↦ a.Holds layout m₀ m' (R.set inst.getRd (if Lost tr inst then R.get inst.getRs1
              else R.get inst.getRs1 + R.get inst.getRs2)) := by
      intro r hr
      rw [huses.of_ne hrd, huses]
      refine moveVia h hrd fun m₁ h₁ ↦ ?_
      rw [h.value] at h₁
      have hcopied := R.get_set_get inst.getRd r
      have h1 : (R.set inst.getRd (R.get r)).get inst.getRs1 = R.get inst.getRs1 := by
        rcases hr with ⟨rfl, -⟩ | ⟨-, hz⟩
        · exact hcopied
        · rw [hz, Regs.get_zero, Regs.get_zero]
      have h2 : (R.set inst.getRd (R.get r)).get inst.getRs2 = R.get inst.getRs2 := by
        rcases hr with ⟨-, hz⟩ | ⟨rfl, -⟩
        · rw [hz, Regs.get_zero, Regs.get_zero]
        · exact hcopied
      have heff := regType_effect clobber (idOf_mem .ADD) h₁ hrd huses
      rw [h1, h2, Regs.set_set] at heff
      exact heff
    split
    · next hne => exact RS1 (RD (.seq (hcopy _ (.inl ⟨rfl, hz.resolve_left hne⟩))))
    · next heq => exact RS2 (RD (.seq (hcopy _ (.inr ⟨rfl, not_not.mp heq⟩))))
  · exact regType_effect clobber (idOf_mem .ADD) h hrd huses

omit hid h hrd in
theorem add_zero (hm : Ready layout m) (huses : tr.Uses a) (hrd : inst.getRd = 0) :
    Emits (env layout clobber) (translateADD inst) tr m fun m' ↦ a.Holds layout m m' (a.regs m) := by
  rw [translateADD]
  have hrefl := Allocation.Holds.refl (a := a) hm
  have hcopy : ∀ r : Reg, Emits (env layout clobber) (TranslateInst.moveVia (tr.getReg inst.getRd)
      (tr.getReg r)) tr m fun m₁ ↦ Emits (env layout clobber) (translateRegType inst .add) tr m₁
        fun m' ↦ a.Holds layout m m' (a.regs m) := by
    intro r
    rw [huses r, hrd]
    refine moveVia_imm hm (fun _ ↦ regType_zero hrd hrefl) fun f ↦ regType_zero hrd ?_
    exact (hrefl.scratch (g := .rax) (by decide) (by decide) _).withFlags f
  split
  · split
    · exact RS1 (RD (.seq (hcopy _)))
    · exact RS2 (RD (.seq (hcopy _)))
  · exact regType_zero hrd hrefl

end Emits

/-- The operation leaves its first operand as it is. -/
def Absorbs (c : Cmd) (v w : U32) : Prop :=
  match c with
  | .OR => w &&& ~~~v = 0
  | .AND => v &&& ~~~w = 0
  | _ => w = 0

theorem combine_eq_left {c : Cmd} (hc : c ∈ regTypes) {v w : U32} :
    combine c v w = v ↔ Absorbs c v w := by
  simp only [regTypes, List.mem_cons, List.not_mem_nil, or_false] at hc
  rcases hc with rfl | rfl | rfl | rfl | rfl
  · exact add_eq_left
  · exact sub_eq_self
  · change v ^^^ w = v ↔ w = 0
    constructor
    · intro h
      have hw := congrArg (v ^^^ ·) h
      simpa [← BitVec.xor_assoc] using hw
    · rintro rfl
      exact BitVec.xor_zero
  · change v ||| w = v ↔ w &&& ~~~v = 0
    constructor <;> intro h <;> ext i hi <;> have hb := congrArg (·.getLsbD i) h <;>
      simp [hi] at hb ⊢
    · exact hb
    · exact hb
  · change v &&& w = v ↔ v &&& ~~~w = 0
    constructor <;> intro h <;> ext i hi <;> have hb := congrArg (·.getLsbD i) h <;>
      simp [hi] at hb ⊢
    · exact hb
    · exact hb

theorem regType_template {layout : Layout} (clobber : Clobber) {a : Allocation} {tr : Translator}
    {inst : Inst} {m : Machine State} (hcmd : inst.getCmd ∈ regTypes) (huses : tr.Uses a)
    (hm : Ready layout m) :
    Emits (env layout clobber) inst.translate tr m fun m' ↦ a.Holds layout m m'
      ((a.regs m).set inst.getRd (if Lost tr inst then (a.regs m).get inst.getRs1
        else combine inst.getCmd ((a.regs m).get inst.getRs1) ((a.regs m).get inst.getRs2))) := by
  have hrefl := Allocation.Holds.refl (a := a) hm
  rw [translate_regType hcmd]
  by_cases hrd : inst.getRd = 0
  · rw [hrd, Regs.set_zero]
    split
    · exact Emits.add_zero hm huses hrd
    · exact Emits.regType_zero hrd hrefl
  · split
    · next hadd =>
      rw [hadd]
      exact Emits.add_effect hrefl hrd huses
    · exact Emits.regType_effect clobber (idOf_mem _) hrefl hrd huses

/-- The templates of ADD, SUB, XOR, OR and AND are right where they do not lose the operation,
and where it would change nothing. -/
theorem regType_agrees_iff {layout : Layout} {clobber : Clobber} {a : Allocation} {tr : Translator}
    {inst : Inst} {m : Machine State} (hcmd : inst.getCmd ∈ regTypes) (huses : tr.Uses a)
    (hm : Ready layout m) (offset : U32) :
    Agrees layout clobber a tr inst offset m ↔
      ¬Lost tr inst ∨
        Absorbs inst.getCmd ((a.regs m).get inst.getRs1) ((a.regs m).get inst.getRs2) := by
  rw [agrees_iff (regType_template clobber hcmd huses hm) (exec_regType hcmd offset _)]
  split
  · next hlost =>
    have hrd : inst.getRd ≠ 0 := by
      intro hz
      have hmem := hlost.1
      rw [hz] at hmem
      cases hmem
    rw [← combine_eq_left hcmd]
    constructor
    · rintro (hz | hv)
      · exact absurd hz hrd
      · exact .inr hv.symm
    · rintro (hl | hv)
      · exact absurd hlost hl
      · exact .inr hv.symm
  · next hlost => exact ⟨fun _ ↦ .inl hlost, fun _ ↦ .inr rfl⟩

/-- `sub x3, x1, x2` -/
def minuend : Inst := genR ⟨.SUB, by decide⟩ 3 1 2

def five_three : Regs := (Regs.fill0.set 1 5).set 2 3

theorem regType_agrees_iff_slots :
    Agrees ⟨0, 0⟩ (fun _ _ _ ↦ 0) .slots (.init [minuend] false) minuend 0
      (atEntry five_three) :=
  (regType_agrees_iff (by decide) (uses_slots _ _) (ready_atEntry _) 0).mpr (.inl (by decide))

/-- In a trace that reads `x1` again `sub x3, x1, x2` leaves `x1` in `x3`: only `x1` is given a
register. -/
theorem sub_lost :
    let again := genR ⟨.ADD, by decide⟩ 4 1 1
    let tr := ((preWork minuend).run (.init [minuend, again, genJ ⟨.JAL, by decide⟩ 0 8] false)).2
    let m := put (atEntry five_three) (.host .rsi) 5
    let a := Allocation.slots.toHost 1 .rsi (by decide) nofun
    tr.Uses a ∧ Ready ⟨0, 0⟩ m ∧ ¬Agrees ⟨0, 0⟩ (fun _ _ _ ↦ 0) a tr minuend 0 m := by
  intro again tr m a
  have huses : tr.Uses a := by
    intro r
    revert r
    decide
  have hm : Ready ⟨0, 0⟩ m := rfl
  have hcmd : minuend.getCmd ∈ regTypes := by decide
  refine ⟨huses, hm, ?_⟩
  rw [agrees_iff (regType_template _ hcmd huses hm) (exec_regType hcmd 0 _)]
  decide

end RiscvSim
