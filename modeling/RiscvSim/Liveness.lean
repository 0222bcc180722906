import RiscvSim.Translator

namespace RiscvSim

open Isa Ir

namespace Ir.Inst

/-- The instruction has a source field, and the field names `r`. -/
def Reads (inst : Inst) (r : Reg) : Prop :=
  inst.getCmdFormat ∈ [.R, .I, .S, .B] ∧ inst.rs1_ = r ∨ inst.getCmdFormat ∈ [.R, .S, .B] ∧ inst.rs2_ = r

/-- The instruction has a destination field, and the field names `r`. -/
def Writes (inst : Inst) (r : Reg) : Prop :=
  inst.getCmdFormat ∈ [.R, .I, .U, .J] ∧ inst.rd_ = r

theorem format_defined (o : Opcode) : (getOpcodeDesc o).format ≠ .UNDEFINED := by
  cases o <;> nofun

theorem isRs1_iff (inst : Inst) : inst.isRs1 ↔ inst.getCmdFormat ∈ [.R, .I, .S, .B] := by
  have h := format_defined inst.getOpcode
  rw [isRs1, getCmdFormat]
  generalize (getOpcodeDesc inst.getOpcode).format = f at h ⊢
  cases f <;> simp at h ⊢

theorem isRs2_iff (inst : Inst) : inst.isRs2 ↔ inst.getCmdFormat ∈ [.R, .S, .B] := by
  have h := format_defined inst.getOpcode
  rw [isRs2, getCmdFormat]
  generalize (getOpcodeDesc inst.getOpcode).format = f at h ⊢
  cases f <;> simp at h ⊢

theorem isRd_iff (inst : Inst) : inst.isRd ↔ inst.getCmdFormat ∈ [.R, .I, .U, .J] := by
  have h := format_defined inst.getOpcode
  rw [isRd, getCmdFormat]
  generalize (getOpcodeDesc inst.getOpcode).format = f at h ⊢
  cases f <;> simp at h ⊢

theorem reads_iff {inst : Inst} {r : Reg} :
    inst.Reads r ↔ inst.isRs1 ∧ inst.getRs1 = r ∨ inst.isRs2 ∧ inst.getRs2 = r := by
  rw [Reads, isRs1_iff, isRs2_iff]
  rfl

theorem writes_iff {inst : Inst} {r : Reg} : inst.Writes r ↔ inst.isRd ∧ inst.getRd = r := by
  rw [Writes, isRd_iff]
  rfl

end Ir.Inst

namespace Translator

/-- `r` is read at `j`, and nowhere before is it written. -/
def NextUse (insts : List Inst) (r : Reg) (j : ℕ) : Prop :=
  (∃ inst, insts[j]? = some inst ∧ inst.Reads r) ∧
    ∀ k < j, ∀ inst, insts[k]? = some inst → ¬ inst.Writes r

theorem nextUse_zero {inst : Inst} {rest : List Inst} {r : Reg} :
    NextUse (inst :: rest) r 0 ↔ inst.Reads r := by
  simp [NextUse]

theorem nextUse_succ {inst : Inst} {rest : List Inst} {r : Reg} {j : ℕ} :
    NextUse (inst :: rest) r (j + 1) ↔ ¬ inst.Writes r ∧ NextUse rest r j := by
  constructor
  · rintro ⟨hread, hwrite⟩
    refine ⟨hwrite 0 (Nat.succ_pos j) inst rfl, hread, fun k hk inst' hi ↦ ?_⟩
    exact hwrite (k + 1) (Nat.succ_lt_succ hk) inst' hi
  · rintro ⟨hfirst, hread, hwrite⟩
    refine ⟨hread, fun k hk inst' hi ↦ ?_⟩
    cases k with
    | zero =>
      cases hi
      exact hfirst
    | succ k => exact hwrite k (Nat.lt_of_succ_lt_succ hk) inst' hi

theorem liveBefore_iff (inst : Inst) (live : Reg → Bool) (r : Reg) :
    liveBefore inst live r = true ↔ inst.Reads r ∨ ¬ inst.Writes r ∧ live r = true := by
  rw [Inst.reads_iff, Inst.writes_iff]
  have hupdate : ∀ (b : Bool) (live : Reg → Bool) (field : Reg) (v : Bool),
      (if b then Function.update live field v else live) r = true ↔
        if b ∧ field = r then v = true else live r = true := by
    intro b live field v
    by_cases hf : field = r
    · subst hf
      cases b <;> simp
    · cases b <;> simp [hf, Function.update_of_ne (Ne.symm hf)]
  rw [liveBefore, hupdate, hupdate, hupdate]
  split_ifs <;> simp_all

theorem liveIn_iff (insts : List Inst) (r : Reg) :
    liveIn insts r = true ↔ ∃ j, NextUse insts r j := by
  induction insts with
  | nil =>
    refine iff_of_false nofun ?_
    rintro ⟨j, ⟨inst, hi, -⟩, -⟩
    cases hi
  | cons inst rest ih =>
    rw [liveIn, liveBefore_iff, ih]
    constructor
    · rintro (hread | ⟨hwrite, j, hj⟩)
      · exact ⟨0, nextUse_zero.mpr hread⟩
      · exact ⟨j + 1, nextUse_succ.mpr ⟨hwrite, hj⟩⟩
    · rintro ⟨j, hj⟩
      cases j with
      | zero => exact .inl (nextUse_zero.mp hj)
      | succ j => exact .inr ⟨(nextUse_succ.mp hj).1, j, (nextUse_succ.mp hj).2⟩

theorem calcLiveness_get (insts : List Inst) {i : ℕ} (hi : i < insts.length) :
    (calcLiveness insts)[i]? = some (liveIn (insts.drop (i + 1))) := by
  induction insts generalizing i with
  | nil => cases hi
  | cons inst rest ih =>
    cases i with
    | zero => rfl
    | succ i => exact ih (Nat.lt_of_succ_lt_succ hi)

/-- Bit `r` of entry `i` says that some later instruction reads `r` before `r` is written. -/
theorem calcLiveness_iff (insts : List Inst) (i : Fin insts.length) (r : Reg) :
    ∃ cur_info, (calcLiveness insts)[(i : ℕ)]? = some cur_info ∧ (cur_info r = true ↔
      ∃ j, i < j ∧ insts[j].Reads r ∧ ∀ k, i < k → k < j → ¬ insts[k].Writes r) := by
  refine ⟨_, calcLiveness_get insts i.isLt, (liveIn_iff _ r).trans ?_⟩
  constructor
  · rintro ⟨j, ⟨inst, hj, hread⟩, hwrite⟩
    rw [List.getElem?_drop] at hj
    obtain ⟨hlt, rfl⟩ := List.getElem?_eq_some_iff.mp hj
    refine ⟨⟨i + 1 + j, hlt⟩, ?_, hread, ?_⟩
    · exact Nat.lt_of_succ_le (Nat.le_add_right _ j)
    · intro k hik hkj
      obtain ⟨m, hm⟩ := Nat.exists_eq_add_of_le (Nat.succ_le_of_lt (show (i : ℕ) < k from hik))
      refine hwrite m ?_ insts[k] ?_
      · have hlt : (k : ℕ) < i + 1 + j := hkj
        omega
      · rw [List.getElem?_drop, ← Nat.succ_eq_add_one, ← hm]
        exact List.getElem?_eq_getElem k.isLt
  · rintro ⟨j, hij, hread, hwrite⟩
    obtain ⟨m, hm⟩ := Nat.exists_eq_add_of_le (Nat.succ_le_of_lt (show (i : ℕ) < j from hij))
    refine ⟨m, ⟨insts[j], ?_, hread⟩, fun k hk inst hinst ↦ ?_⟩
    · rw [List.getElem?_drop, ← Nat.succ_eq_add_one, ← hm]
      exact List.getElem?_eq_getElem j.isLt
    · rw [List.getElem?_drop] at hinst
      obtain ⟨hlt, rfl⟩ := List.getElem?_eq_some_iff.mp hinst
      refine hwrite ⟨i + 1 + k, hlt⟩ ?_ ?_
      · exact Nat.lt_of_succ_le (Nat.le_add_right _ k)
      · change (i : ℕ) + 1 + k < j
        omega

end Translator

end RiscvSim
