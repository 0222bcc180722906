import RiscvSim.Templates
import Mathlib.Tactic.Ring

namespace RiscvSim

open Isa Ir X86 Results Translator Native TranslateInst BitFields

def productTypes : List Cmd := [.MUL, .MULH]

def product (c : Cmd) (v w : U32) : U32 :=
  if c = .MUL then v * w else ExecInst.high (v.signExtend 64) (w.signExtend 64)

/-- The location of the half a template takes. -/
def halfOf (c : Cmd) : Gp := if c = .MUL then .rax else .rdx

section

variable {inst : Inst} (hcmd : inst.getCmd ∈ productTypes)

include hcmd

theorem exec_productType (offset : U32) (s : State) :
    let v := product inst.getCmd (s.regs.get inst.getRs1) (s.regs.get inst.getRs2)
    (inst.func_.exec inst offset).run s =
      .ok .nextInst { s with regs := s.regs.set inst.getRd v } := by
  obtain ⟨imm, rs1, rs2, rd, c, hc⟩ := inst
  simp only [productTypes, Inst.getCmd, List.mem_cons, List.not_mem_nil, or_false] at hcmd
  rcases hcmd with rfl | rfl
  · exact regType_run _ rfl
  · exact regType_run _ rfl

theorem translate_productType :
    inst.translate = translateProduct inst (Loc.host (halfOf inst.getCmd)).op := by
  obtain ⟨imm, rs1, rs2, rd, c, hc⟩ := inst
  simp only [productTypes, Inst.getCmd, List.mem_cons, List.not_mem_nil, or_false] at hcmd
  rcases hcmd with rfl | rfl <;> rfl

end

theorem exec_mul_loc {layout : Layout} {clobber : Clobber} {m : Machine State} (hm : Ready layout m)
    (l : Loc) :
    (exec (env layout clobber) (.mul l.op)).run m = .ok ()
      ((put (put m (.host .rax) (look m (.host .rax) * look m l)) (.host .rdx)
        (ExecInst.high ((look m (.host .rax)).setWidth 64) ((look m l).setWidth 64))).withFlags none) := by
  apply exec_mul
  have hw : dstWidth l.op = some 32 := by cases l <;> rfl
  have hval : m.value (env layout clobber) 32 l.op = .ok (look m l) := value_op hm (.loc l)
  rw [execMul, hw]
  dsimp only
  rw [hval]
  have hlow (x y : U32) : (x.setWidth (32 + 32) * y.setWidth (32 + 32)).setWidth 32 = x * y := by
    rw [BitVec.setWidth_mul _ _ (by decide), setWidth_setWidth_self (by decide),
      setWidth_setWidth_self (by decide)]
  change Except.ok (((m.set .rax ((_ * _ : BitVec (32 + 32)).setWidth 32)).set .rdx _).withFlags none) = _
  rw [hlow]
  rfl

namespace Emits

variable {layout : Layout} {clobber : Clobber} {a : Allocation} {tr : Translator} {inst : Inst}
  {m m₀ : Machine State} {R : Regs}

theorem mul (hm : Ready layout m) (l : Loc) {Q : Machine State → Prop}
    (h : Q ((put (put m (.host .rax) (look m (.host .rax) * look m l)) (.host .rdx)
      (ExecInst.high ((look m (.host .rax)).setWidth 64) ((look m l).setWidth 64))).withFlags none)) :
    Emits (env layout clobber) (Translator.emit (.mul l.op)) tr m Q := by
  refine emit ?_ (exec_mul_loc hm l) h
  cases l <;> rfl

theorem take_half (huses : tr.Uses a) (h : a.Holds layout m₀ m R) (g : Gp) {v : U32}
    (hv : look m (.host g) = v) :
    Emits (env layout clobber) (translateMove (tr.getReg inst.getRd) (Loc.host g).op) tr m
      fun m' ↦ a.Holds layout m₀ m' (R.set inst.getRd v) := by
  by_cases hrd : inst.getRd = 0
  · rw [huses, hrd, Regs.set_zero]
    exact move_imm h
  · rw [huses.of_ne hrd, ← hv]
    exact move (s := .loc (.host g)) h.ready (a.usable hrd) (Bool.and_false _) fun f ↦
      (h.put hrd _).withFlags f

end Emits

def machineProduct (c : Cmd) (v w : U32) : U32 :=
  if c = .MUL then v * w else ExecInst.high (v.setWidth 64) (w.setWidth 64)

section

variable {layout : Layout} {clobber : Clobber} {a : Allocation} {tr : Translator} {inst : Inst}
  {m : Machine State} (hcmd : inst.getCmd ∈ productTypes) (huses : tr.Uses a) (hm : Ready layout m)

include hcmd huses hm

/-- A factor `x0` is a constant, and no multiplication is emitted. -/
theorem productType_template :
    Emits (env layout clobber) inst.translate tr m fun m' ↦ a.Holds layout m m'
      ((a.regs m).set inst.getRd
        (if inst.getRs2 = 0 then
          if inst.getCmd = .MUL then (a.regs m).get inst.getRs1 else look m (.host .rdx)
        else machineProduct inst.getCmd ((a.regs m).get inst.getRs1)
          ((a.regs m).get inst.getRs2))) := by
  have hrefl := Allocation.Holds.refl (a := a) hm
  rw [translate_productType hcmd]
  refine Emits.RS1 (.seq ?_)
  rw [huses]
  refine .move (l := .host .rax) hm (by decide) rfl fun f ↦ Emits.RS2 (.seq ?_)
  rw [hrefl.value]
  have h₁ := (hrefl.scratch (g := .rax) (by decide) (by decide)
    ((a.regs m).get inst.getRs1)).withFlags f
  have e₁ := look_wrote m f (l := .host .rax) (by decide) ((a.regs m).get inst.getRs1)
  generalize (put m (.host .rax) ((a.regs m).get inst.getRs1)).withFlags f = m₁ at h₁ e₁ ⊢
  split
  · next hrs2 =>
    rw [huses, hrs2]
    refine .emit_none rfl (Emits.RD (.take_half huses h₁ _ ?_))
    rw [e₁, halfOf]
    by_cases hmul : inst.getCmd = .MUL
    · rw [if_pos hmul, if_pos rfl, if_pos hmul]
    · rw [if_neg hmul, if_neg (by decide), if_neg hmul]
  · next hrs2 =>
    rw [huses.of_ne hrs2]
    have hacc : look m₁ (.host .rax) = (a.regs m).get inst.getRs1 := by rw [e₁, if_pos rfl]
    refine .mul h₁.ready _ (Emits.RD (.take_half huses ?_ _ ?_))
    · exact ((h₁.scratch (g := .rax) (by decide) (by decide) _).scratch (g := .rdx) (by decide)
        (by decide) _).withFlags none
    · rw [look_withFlags, look_put _ (by decide), look_put _ (by decide), hacc, h₁.look hrs2,
        machineProduct, halfOf]
      by_cases hmul : inst.getCmd = .MUL
      · rw [if_pos hmul, if_neg (by decide), if_pos rfl, if_pos hmul]
      · rw [if_neg hmul, if_pos rfl, if_neg hmul]

end

theorem toNat_high (x y : U64) : (ExecInst.high x y).toNat = x.toNat * y.toNat % 2 ^ 64 / 2 ^ 32 := by
  have hlt : x.toNat * y.toNat % 2 ^ 64 / 2 ^ 32 < 2 ^ 32 :=
    Nat.div_lt_of_lt_mul (Nat.mod_lt _ (by decide))
  rw [ExecInst.high, BitVec.toNat_setWidth, BitVec.toNat_ushiftRight, BitVec.toNat_mul,
    Nat.shiftRight_eq_div_pow, Nat.mod_eq_of_lt hlt]

/-- The sign of a factor adds a multiple of `2 ^ 32 * (2 ^ 32 - 1)` to its unsigned value. -/
theorem toNat_signExtend_64 (v : U32) :
    (v.signExtend 64).toNat = v.toNat + 2 ^ 32 * (2 ^ 32 - 1) * v.msb.toNat := by
  rw [BitVec.toNat_signExtend, BitVec.toNat_setWidth, Nat.mod_eq_of_lt (by omega)]
  cases v.msb <;> rfl

def carried (v w : U32) : ℕ := v.msb.toNat * w.toNat + w.msb.toNat * v.toNat

theorem mul_signed (v w : U32) :
    (v.signExtend 64).toNat * (w.signExtend 64).toNat =
      v.toNat * w.toNat + 2 ^ 32 * ((2 ^ 32 - 1) * carried v w) +
        2 ^ 64 * ((2 ^ 32 - 1) ^ 2 * v.msb.toNat * w.msb.toNat) := by
  rw [toNat_signExtend_64, toNat_signExtend_64, carried]
  ring

theorem high_carried (v w : U32) :
    (ExecInst.high (v.signExtend 64) (w.signExtend 64)).toNat =
      (v.toNat * w.toNat / 2 ^ 32 + (2 ^ 32 - 1) * carried v w) % 2 ^ 32 := by
  have h64 : 2 ^ 64 = 2 ^ 32 * 2 ^ 32 := by decide
  rw [toNat_high, mul_signed, Nat.add_mul_mod_self_left, h64, Nat.mod_mul_right_div_self,
    Nat.add_mul_div_left _ _ (by decide)]

theorem high_unsigned (v w : U32) :
    (ExecInst.high (v.setWidth 64) (w.setWidth 64)).toNat = v.toNat * w.toNat / 2 ^ 32 := by
  have hprod : v.toNat * w.toNat < 2 ^ 32 * 2 ^ 32 := Nat.mul_lt_mul'' v.isLt w.isLt
  have hzero (x : U32) : (x.setWidth 64).toNat = x.toNat := by
    rw [BitVec.toNat_setWidth]
    omega
  rw [toNat_high, hzero, hzero]
  exact congrArg (· / 2 ^ 32) (Nat.mod_eq_of_lt hprod)

/-- Where the signed and the unsigned product have one high half. -/
def SignFree (v w : U32) : Prop :=
  v.msb = false ∧ w.msb = false ∨ v = 0 ∨ w = 0 ∨ v = 0x80000000 ∧ w = 0x80000000

theorem carried_iff (v w : U32) : carried v w % 2 ^ 32 = 0 ↔ SignFree v w := by
  have hv := v.isLt
  have hw := w.isLt
  have hmv := BitVec.msb_eq_decide v
  have hmw := BitVec.msb_eq_decide w
  rw [SignFree, ← BitVec.toNat_inj, ← BitVec.toNat_inj, ← BitVec.toNat_inj, ← BitVec.toNat_inj]
  change _ ↔ _ ∨ _ = 0 ∨ _ = 0 ∨ _ = 2147483648 ∧ _ = 2147483648
  rw [carried]
  cases hsv : v.msb <;> cases hsw : w.msb <;> rw [hsv] at hmv <;> rw [hsw] at hmw <;>
    simp at hmv hmw ⊢ <;> omega

theorem high_eq_iff (v w : U32) :
    ExecInst.high (v.setWidth 64) (w.setWidth 64) = ExecInst.high (v.signExtend 64) (w.signExtend 64) ↔
      SignFree v w := by
  have hprod : v.toNat * w.toNat / 2 ^ 32 < 2 ^ 32 :=
    Nat.div_lt_of_lt_mul (Nat.mul_lt_mul'' v.isLt w.isLt)
  rw [← BitVec.toNat_inj, high_unsigned, high_carried, ← carried_iff]
  generalize v.toNat * w.toNat / 2 ^ 32 = h at hprod
  generalize carried v w = b
  omega

section

variable {layout : Layout} {clobber : Clobber} {a : Allocation} {tr : Translator} {inst : Inst}
  {m : Machine State} (hcmd : inst.getCmd ∈ productTypes) (huses : tr.Uses a) (hm : Ready layout m)

include hcmd huses hm

theorem productType_agrees_iff (offset : U32) :
    Agrees layout clobber a tr inst offset m ↔ inst.getRd = 0 ∨
      inst.getRs2 ≠ 0 ∧ (inst.getCmd = .MUL ∨
        SignFree ((a.regs m).get inst.getRs1) ((a.regs m).get inst.getRs2)) ∨
      inst.getRs2 = 0 ∧
        (if inst.getCmd = .MUL then (a.regs m).get inst.getRs1 = 0 else look m (.host .rdx) = 0) := by
  rw [agrees_iff (productType_template hcmd huses hm) (exec_productType hcmd offset _)]
  change _ = _ ∨ _ = product _ ((a.regs m).get _) ((a.regs m).get _) ↔ _
  refine or_congr_right ?_
  generalize (a.regs m).get inst.getRs1 = v
  have hzero : (a.regs m).get 0 = 0 := (a.regs m).get_zero
  by_cases hrs2 : inst.getRs2 = 0
  · have hprod : product inst.getCmd v 0 = 0 := by
      rw [product]
      split
      · exact BitVec.mul_zero
      · rw [show (0 : U32).signExtend 64 = 0#64 by decide, ExecInst.high, BitVec.mul_zero]
        rfl
    rw [if_pos hrs2, hrs2, hzero, hprod]
    simp only [ne_eq, not_true_eq_false, false_and, false_or, true_and]
    split <;> rfl
  · rw [if_neg hrs2, machineProduct, product]
    simp only [ne_eq, hrs2, not_false_eq_true, true_and, false_and, or_false]
    by_cases hmul : inst.getCmd = .MUL
    · simp [hmul]
    · simp only [hmul, if_false, false_or]
      exact high_eq_iff v _

end

/-- `mul x3, x1, x2` with `x1 = 6` and `x2 = -7` -/
theorem productType_agrees_iff_mul :
    Agrees ⟨0, 0⟩ (fun _ _ _ ↦ 0) .slots (.init [] false) (genR ⟨.MUL, by decide⟩ 3 1 2) 0
      (atEntry ((Regs.fill0.set 1 6).set 2 (-7))) :=
  (productType_agrees_iff (by decide) (uses_slots _ _) (ready_atEntry _) 0).mpr
    (.inr (.inl ⟨by decide, .inl rfl⟩))

/-- `mulh x3, x1, x2` with `x1 = -1` and `x2 = 1`: 0 where the interpreter has -1. -/
theorem mulh_unsigned :
    let inst := genR ⟨.MULH, by decide⟩ 3 1 2
    let tr := Translator.init [inst, genJ ⟨.JAL, by decide⟩ 0 4] false
    let m := atEntry ((Regs.fill0.set 1 (-1)).set 2 1)
    tr.Uses .slots ∧ Ready ⟨0, 0⟩ m ∧
      ¬Agrees ⟨0, 0⟩ (fun _ _ _ ↦ 0) .slots tr inst 0 m := by
  intro inst tr m
  have huses : tr.Uses .slots := uses_slots _ _
  have hm : Ready ⟨0, 0⟩ m := ready_atEntry _
  have hcmd : inst.getCmd ∈ productTypes := by decide
  refine ⟨huses, hm, ?_⟩
  rw [agrees_iff (productType_template hcmd huses hm) (exec_productType hcmd 0 _)]
  decide

end RiscvSim
