import RiscvSim.Steady

namespace RiscvSim

open Isa Ir X86 Results Translator Native TranslateInst

/-- What a part of the translation does: it appends code with `P` and moves registers. -/
structure Extends (P : NativeCode → Prop) (tr tr' : Translator) : Prop where
  code : ∃ c, tr'.code_ = tr.code_ ++ c ∧ P c
  allocated : ∃ a, tr'.Allocated a
  same : tr' = { tr with
    code_ := tr'.code_, reg_mapping_ := tr'.reg_mapping_, reg_pool_ := tr'.reg_pool_ }

/-- The work around a template, from whatever allocation. -/
def Moves (x : Tr Unit) : Prop := ∀ tr a, tr.Allocated a → Extends Mild tr (x.run tr).2

namespace Extends

variable {tr tr' tr'' : Translator} {P Q R : NativeCode → Prop}

theorem refl {a : Allocation} (h : tr.Allocated a) : Extends Mild tr tr where
  code := ⟨[], (List.append_nil _).symm, .nil⟩
  allocated := ⟨a, h⟩
  same := rfl

theorem mono (h : Extends P tr tr') (hPQ : ∀ c, P c → Q c) : Extends Q tr tr' where
  code := by
    obtain ⟨c, hc, hp⟩ := h.code
    exact ⟨c, hc, hPQ c hp⟩
  allocated := h.allocated
  same := h.same

theorem trans (h : Extends P tr tr') (h' : Extends Q tr' tr'')
    (hR : ∀ c d, P c → Q d → R (c ++ d)) : Extends R tr tr'' where
  code := by
    obtain ⟨c, hc, hp⟩ := h.code
    obtain ⟨d, hd, hq⟩ := h'.code
    exact ⟨c ++ d, by rw [hd, hc, List.append_assoc], hR c d hp hq⟩
  allocated := h'.allocated
  same := by
    have h₂ := h'.same
    rw [h.same] at h₂
    exact h₂

end Extends

theorem Appends.extends {P : NativeCode → Prop} {x : Tr Unit} {tr : Translator} {a : Allocation}
    (h : tr.Allocated a) (hx : Appends P x tr) : Extends P tr (x.run tr).2 := by
  obtain ⟨c, hc, hs⟩ := hx
  have hrun : x.run tr = ((), { tr with code_ := tr.code_ ++ c }) := hc tr.code_
  rw [hrun]
  exact ⟨⟨c, rfl, hs⟩, ⟨a, h.withCode _⟩, rfl⟩

namespace Moves

variable {x y : Tr Unit}

theorem pure : Moves (Pure.pure ()) := fun _ _ h ↦ .refl h

theorem seq (hx : Moves x) (hy : Moves y) : Moves (do x; y) := by
  intro tr a h
  have h₁ := hx tr a h
  obtain ⟨a', h'⟩ := h₁.allocated
  exact h₁.trans (hy _ a' h') fun _ _ ↦ .append

theorem forM (l : List Reg) {f : Reg → Tr Unit} (hf : ∀ r, Moves (f r)) : Moves (l.forM f) := by
  induction l with
  | nil => exact pure
  | cons r l ih => exact (hf r).seq ih

theorem whenever {c : Translator → Prop} [DecidablePred c] (hx : Moves x) (hy : Moves y) :
    Moves (do
      let tr ← get
      if c tr then
        x
        y
      else y) := by
  intro tr a h
  change Extends Mild tr ((if c tr then (do x; y) else y : Tr Unit).run tr).2
  split
  · exact hx.seq hy tr a h
  · exact hy tr a h

theorem allocateReg (reg : Reg) (load : Bool) : Moves (Translator.allocateReg reg load) := by
  intro tr a h
  rcases allocateReg_run h reg load with ⟨hrun, -⟩ | ⟨hs, g, rest, hp, hrun⟩
  · rw [hrun]
    exact .refl h
  · obtain ⟨a', -, h'⟩ := h.toHost hp hs
    have hg : g ≠ .rdi := by
      rintro rfl
      exact absurd ((h.free .rdi).mp (by rw [hp]; exact List.mem_cons_self)).1 (by decide)
    rw [hrun]
    refine ⟨⟨_, rfl, ?_⟩, ⟨a', h'.withCode _⟩, rfl⟩
    split
    · exact .inst hg
    · exact .nil

theorem deallocateReg (reg : Reg) (sink : Bool) : Moves (Translator.deallocateReg reg sink) := by
  intro tr a h
  rcases deallocateReg_run h reg sink with ⟨hrun, -⟩ | ⟨g, hl, hrun⟩
  · rw [hrun]
    exact .refl h
  · rw [hrun]
    refine ⟨⟨_, rfl, ?_⟩, ⟨_, (h.toSlot hl).withCode _⟩, rfl⟩
    split
    · exact .inst (writable_slot reg)
    · exact .nil

theorem deallocateAllRegs : Moves Translator.deallocateAllRegs := forM _ fun r ↦ deallocateReg r true

theorem preWork (inst : Inst) : Moves (Translator.preWork inst) :=
  whenever (allocateReg _ _) (whenever (allocateReg _ _) (whenever (allocateReg _ _) pure))

theorem postWork (inst : Inst) : Moves (Translator.postWork inst) :=
  whenever (deallocateReg _ _) (whenever (deallocateReg _ _) (whenever (deallocateReg _ _) pure))

end Moves

def Forward (layout : Layout) (clobber : Clobber) (c : NativeCode) : Prop :=
  Steady layout clobber c ∨ ∃ pre cond x y post, Steady layout clobber pre ∧ Steady layout clobber x ∧
    Steady layout clobber y ∧ Steady layout clobber post ∧ c = pre ++ twoWay cond 1 2 x y ++ post

/-- Code that may jump back to its start. -/
def Looping (layout : Layout) (clobber : Clobber) (c : NativeCode) : Prop :=
  ∃ pre cond post, Steady layout clobber pre ∧ Steady layout clobber post ∧
    c = pre ++ .inst (.jcc cond 0) :: post

def addPC (v : U64) : NativeCode := [.inst (.bin .add PC (.imm v))]

theorem mild_addPC (v : U64) : Mild (addPC v) := .inst writable_pc

/-- The code of a branch: a jump back to the start, or around one of two additions. -/
def Branches (back : Prop) (c : NativeCode) : Prop :=
  ∃ pre cond v w post, Mild pre ∧ Mild post ∧
    (back → c = pre ++ .inst (.jcc cond 0) :: (addPC v ++ post)) ∧
    (¬ back → c = pre ++ twoWay cond 1 2 (addPC v) (addPC w) ++ post)

namespace Branches

variable {back : Prop} {c d : NativeCode}

theorem between (hd : Mild d) (h : Branches back c) {e : NativeCode} (he : Mild e) :
    Branches back (d ++ c ++ e) := by
  obtain ⟨pre, cond, v, w, post, hpre, hpost, hb, hf⟩ := h
  refine ⟨d ++ pre, cond, v, w, post ++ e, hd.append hpre, hpost.append he, ?_, ?_⟩
  · intro h
    rw [hb h]
    simp only [List.append_assoc, List.cons_append]
  · intro h
    rw [hf h]
    simp only [List.append_assoc]

variable {layout : Layout} {clobber : Clobber}

theorem looping (h : Branches back c) (hb : back) (hd : Steady layout clobber d) :
    Looping layout clobber (d ++ c) := by
  obtain ⟨pre, cond, v, w, post, hpre, hpost, hc, -⟩ := h
  refine ⟨d ++ pre, cond, addPC v ++ post, hd.append hpre.steady,
    ((mild_addPC v).append hpost).steady, ?_⟩
  rw [hc hb, List.append_assoc]

theorem forward (h : Branches back c) (hb : ¬ back) (hd : Steady layout clobber d) :
    Forward layout clobber (d ++ c) := by
  obtain ⟨pre, cond, v, w, post, hpre, hpost, -, hc⟩ := h
  refine .inr ⟨d ++ pre, cond, addPC v, addPC w, post, hd.append hpre.steady,
    (mild_addPC v).steady, (mild_addPC w).steady, hpost.steady, ?_⟩
  rw [hc hb]
  simp only [List.append_assoc]

end Branches

namespace Translator

def compared (inst : Inst) : Tr Unit := do
  let fst ← firstOperand inst
  emit (.bin .cmp fst (← RS2 inst))

variable {tr : Translator} {a : Allocation} {inst : Inst}

theorem mild_compared (huses : tr.Uses a) (inst : Inst) : Appends Mild (compared inst) tr :=
  .firstOperand huses fun _ hop ↦ .RS2 (.emit hop)

def jumps (inst : Inst) (cond : Cond) (offset : U64) : Tr Unit := do
  if takenOffset inst offset ≠ 0 then
    let taken ← newLabel
    let exit ← newLabel
    emit (.jcc cond taken)
    emit (.bin .add PC (.imm (offset + 4)))
    emit (.jmp exit)
    bindLabel taken
    emit (.bin .add PC (.imm (takenOffset inst offset)))
    bindLabel exit
  else
    deallocateAllRegs
    emit (.jcc cond (← get).func_start_)
    emit (.bin .add PC (.imm (offset + 4)))

theorem run_condBranch (cond : Cond) (tr : Translator) : (translateCondBranch inst cond).run tr =
    (jumps inst cond ((compared inst).run tr).2.getOffset).run ((compared inst).run tr).2 := rfl

section

variable (cond : Cond) {c : NativeCode}
  (hc : ∀ pre, (compared inst).run { tr with code_ := pre } = ((), { tr with code_ := pre ++ c }))

include hc

theorem condBranch_forward (hz : takenOffset inst tr.getOffset ≠ 0) (pre : NativeCode) :
    (translateCondBranch inst cond).run { tr with code_ := pre } = ((), { tr with
      code_ := pre ++ (c ++ twoWay cond tr.labels (tr.labels + 1) (addPC (tr.getOffset + 4))
        (addPC (takenOffset inst tr.getOffset)))
      labels := tr.labels + 2 }) := by
  have hoff : ({ tr with code_ := pre ++ c } : Translator).getOffset = tr.getOffset := rfl
  rw [run_condBranch, hc, hoff, jumps, if_pos hz]
  have hcode : pre ++ (c ++ twoWay cond tr.labels (tr.labels + 1) (addPC (tr.getOffset + 4))
      (addPC (takenOffset inst tr.getOffset))) = pre ++ c ++ [.inst (.jcc cond tr.labels)] ++
        addPC (tr.getOffset + 4) ++ [.inst (.jmp (tr.labels + 1))] ++ [.label tr.labels] ++
        addPC (takenOffset inst tr.getOffset) ++ [.label (tr.labels + 1)] := by
    simp [twoWay]
  rw [hcode]
  rfl

/-- A branch to the start of the code jumps back where all registers are in their slots. -/
theorem condBranch_back (hz : takenOffset inst tr.getOffset = 0) {sunk : Translator}
    (hs : (deallocateAllRegs.run { tr with code_ := tr.code_ ++ c }).2 = sunk) :
    ((translateCondBranch inst cond).run tr).2 = { sunk with
      code_ := sunk.code_ ++ (.inst (.jcc cond sunk.func_start_) :: addPC (tr.getOffset + 4)) } := by
  have hrun : (compared inst).run tr = ((), { tr with code_ := tr.code_ ++ c }) := hc tr.code_
  have hoff : ({ tr with code_ := tr.code_ ++ c } : Translator).getOffset = tr.getOffset := rfl
  have hend : ∀ (x : Tr Unit) v (t : Translator), ((do
      x
      emit (.jcc cond (← get).func_start_)
      emit (.bin .add PC (.imm v)) : Tr Unit).run t).2 = { (x.run t).2 with
        code_ := (x.run t).2.code_ ++ [.inst (.jcc cond (x.run t).2.func_start_)] ++ addPC v } :=
    fun _ _ _ ↦ rfl
  have hjumps := hend deallocateAllRegs (tr.getOffset + 4) { tr with code_ := tr.code_ ++ c }
  rw [hs, List.append_assoc] at hjumps
  rw [run_condBranch, hrun, hoff, jumps, if_neg (not_not.mpr hz)]
  exact hjumps

end

end Translator

theorem condBranch_run {tr : Translator} {a : Allocation} (h : tr.Allocated a) (hl : tr.labels = 1)
    (hstart : tr.func_start_ = 0) (inst : Inst) (cond : Cond) :
    let tr' := ((translateCondBranch inst cond).run tr).2
    (∃ a', tr'.Allocated a') ∧ ∃ c, tr'.code_ = tr.code_ ++ c ∧
      Branches (takenOffset inst tr.getOffset = 0) c := by
  intro tr'
  obtain ⟨c₀, hrun, hpre⟩ := mild_compared h.uses inst
  by_cases hz : takenOffset inst tr.getOffset = 0
  · have hmoves : Extends Mild { tr with code_ := tr.code_ ++ c₀ }
        (deallocateAllRegs.run { tr with code_ := tr.code_ ++ c₀ }).2 :=
      Moves.deallocateAllRegs _ a (h.withCode _)
    generalize hs : (deallocateAllRegs.run { tr with code_ := tr.code_ ++ c₀ }).2 = sunk at hmoves
    have hend : tr' = _ := condBranch_back cond hrun hz hs
    obtain ⟨⟨c₁, hc₁, hs₁⟩, ⟨a', h'⟩, hsame⟩ := hmoves
    have hstart' : sunk.func_start_ = 0 := by
      rw [hsame]
      exact hstart
    rw [hend]
    refine ⟨⟨a', h'.withCode _⟩, c₀ ++ c₁ ++ .inst (.jcc cond 0) :: addPC (tr.getOffset + 4), ?_,
      ⟨_, cond, tr.getOffset + 4, 0, [], hpre.append hs₁, .nil, fun _ ↦ ?_, fun hne ↦ absurd hz hne⟩⟩
    · rw [hstart', hc₁]
      simp
    · rw [List.append_nil]
  · have hend : (translateCondBranch inst cond).run tr = _ := condBranch_forward cond hrun hz tr.code_
    have htr' : tr' = _ := congrArg Prod.snd hend
    rw [htr', hl]
    exact ⟨⟨a, h.mapping, h.nodup, h.free⟩, _, rfl, ⟨_, cond, tr.getOffset + 4,
      takenOffset inst tr.getOffset, [], hpre, .nil, fun he ↦ absurd he hz,
      fun _ ↦ (List.append_nil _).symm⟩⟩

/-- The last of these instructions, the first of which has index `k`, is a branch to index 0. -/
def LoopsFrom (k : ℕ) (insts : List Inst) : Prop :=
  ∃ inst ∈ insts.getLast?, inst.getOpcode = .BRANCH ∧
    takenOffset inst (BitVec.ofNat 64 ((k + insts.length - 1) * 4)) = 0

/-- A branch of the trace is to its own start. -/
def Loops (insts : List Inst) : Prop := LoopsFrom 0 insts

theorem loopsFrom_append {k : ℕ} {body : List Inst} {last : Inst} : LoopsFrom k (body ++ [last]) ↔
    last.getOpcode = .BRANCH ∧ takenOffset last (BitVec.ofNat 64 ((k + body.length) * 4)) = 0 := by
  simp [LoopsFrom, ← Nat.add_assoc]

theorem translate_cond {func : TranslateFunc} {cond : Cond} (h : branchCond func = some cond) (inst : Inst) :
    func.translate inst = translateCondBranch inst cond := by
  cases func <;> cases h <;> rfl

theorem branchCond_table : ∀ desc ∈ cmd_desc, ∀ func ∈ desc.translate_func,
    (branchCond func).isNone = (desc.opcode != .BRANCH) := by decide

theorem translate_func {inst : Inst} (h : inst.isTranslationSupported = true) :
    ∃ func, (getCmdDesc inst.cmd_).translate_func = some func ∧
      inst.translate = func.translate inst ∧
      (branchCond func = none ↔ inst.getOpcode ≠ .BRANCH) := by
  obtain ⟨func, hf⟩ := Option.isSome_iff_exists.mp h
  refine ⟨func, hf, by rw [Inst.translate, hf], ?_⟩
  have hrow := branchCond_table (getCmdDesc inst.cmd_) (List.get_mem _ _) func hf
  rw [← Option.isNone_iff_eq_none, hrow, bne_iff_ne]
  rfl

theorem isTerminator_of_branch {inst : Inst} (h : inst.getOpcode = .BRANCH) : inst.isTerminator = true := by
  rw [Inst.isTerminator]
  split
  · rfl
  · rw [h]

theorem opcode_of_not_isTerminator {inst : Inst} (h : inst.isTerminator = false) :
    inst.getOpcode ≠ .BRANCH := by
  intro hb
  rw [isTerminator_of_branch hb] at h
  cases h

theorem IsTrace.split {insts : List Inst} (h : IsTrace insts) : ∃ body last, insts = body ++ [last] ∧
    last.isTerminator = true ∧ ∀ inst ∈ body, inst.isTerminator = false := by
  induction insts with
  | nil => exact absurd rfl h.ne_nil
  | cons inst rest ih =>
    by_cases hr : rest = []
    · subst hr
      refine ⟨[], inst, rfl, h, fun i hi ↦ ?_⟩
      cases hi
    · obtain ⟨hn, hrest⟩ := (isTrace_cons hr).mp h
      obtain ⟨body, last, rfl, hlast, hbody⟩ := ih hrest
      refine ⟨inst :: body, last, rfl, hlast, fun i hi ↦ ?_⟩
      rcases List.mem_cons.mp hi with rfl | hi
      · exact hn
      · exact hbody i hi

def around (inst : Inst) : Tr Unit := do
  preWork inst
  inst.translate
  postWork inst

section

variable {layout : Layout} {clobber : Clobber} {P : NativeCode → Prop}

theorem extends_around (hl : ∀ c d, Mild c → P d → P (c ++ d)) (hr : ∀ c d, P c → Mild d → P (c ++ d))
    {inst : Inst} {tr : Translator} {a : Allocation} (h : tr.Allocated a)
    (htr : ∀ tr' a', tr'.Allocated a' → tr'.isVirtualAddressing = tr.isVirtualAddressing →
      Appends P inst.translate tr') : Extends P tr ((around inst).run tr).2 := by
  have hpre : Extends Mild tr ((preWork inst).run tr).2 := Moves.preWork inst tr a h
  obtain ⟨a₁, h₁⟩ := hpre.allocated
  have hbody := (htr _ a₁ h₁ (by rw [hpre.same])).extends h₁
  obtain ⟨a₂, h₂⟩ := hbody.allocated
  have hpost : Moves (postWork inst) := .postWork inst
  exact (hpre.trans hbody hl).trans (hpost _ a₂ h₂) hr

variable (clobber) in
theorem steady_around (hapart : layout.Apart) {inst : Inst} (hs : inst.isTranslationSupported = true)
    (hb : inst.getOpcode ≠ .BRANCH) {tr : Translator} {a : Allocation} (h : tr.Allocated a) :
    Extends (Steady layout clobber) tr ((around inst).run tr).2 := by
  obtain ⟨func, -, htr, hcond⟩ := translate_func hs
  refine extends_around (fun c d hc hd ↦ hc.steady.append hd) (fun c d hc hd ↦ hc.append hd.steady) h
    fun tr' a' h' _ ↦ ?_
  rw [htr]
  exact steady_translate h'.uses inst hapart (hcond.mpr hb)

theorem branch_around {inst : Inst} (hs : inst.isTranslationSupported = true)
    (hb : inst.getOpcode = .BRANCH) {tr : Translator} {a : Allocation} (h : tr.Allocated a)
    (hl : tr.labels = 1) (hstart : tr.func_start_ = 0) :
    ∃ c, ((around inst).run tr).2.code_ = tr.code_ ++ c ∧
      Branches (takenOffset inst tr.getOffset = 0) c := by
  obtain ⟨func, -, htr, hcond⟩ := translate_func hs
  obtain ⟨cond, hc⟩ : ∃ cond, branchCond func = some cond := by
    refine Option.ne_none_iff_exists'.mp fun hn ↦ ?_
    exact hcond.mp hn hb
  have hpre : Extends Mild tr ((preWork inst).run tr).2 := Moves.preWork inst tr a h
  have hrun : (around inst).run tr =
      (postWork inst).run ((translateCondBranch inst cond).run ((preWork inst).run tr).2).2 := by
    rw [around, htr, translate_cond hc]
    rfl
  rw [hrun]
  generalize ((preWork inst).run tr).2 = tr₁ at hpre ⊢
  obtain ⟨⟨c₁, hc₁, hs₁⟩, ⟨a₁, h₁⟩, hsame⟩ := hpre
  have hoff : tr₁.getOffset = tr.getOffset := by rw [hsame]; rfl
  obtain ⟨⟨a₂, h₂⟩, c, hc, hbranch⟩ := condBranch_run h₁
    (by rw [hsame]; exact hl) (by rw [hsame]; exact hstart) inst cond
  rw [hoff] at hbranch
  have hpost : Moves (postWork inst) := .postWork inst
  obtain ⟨⟨c₂, hc₂, hs₂⟩, -, -⟩ := hpost _ a₂ h₂
  refine ⟨c₁ ++ c ++ c₂, ?_, hbranch.between hs₁ hs₂⟩
  rw [hc₂, hc, hc₁]
  simp only [List.append_assoc]

theorem translateAll_append {translate : Inst → Tr Unit} (xs ys : List Inst) (tr : Translator) :
    (translateAll translate (xs ++ ys)).run tr =
      (translateAll translate ys).run ((translateAll translate xs).run tr).2 := by
  induction xs generalizing tr with
  | nil => rfl
  | cons inst xs ih => exact ih _

theorem translateAll_extends {P : List Inst → NativeCode → Prop} {Q : Inst → NativeCode → Prop}
    (hnil : P [] []) (hcons : ∀ inst rest c d, Q inst c → P rest d → P (inst :: rest) (c ++ d))
    {insts : List Inst} {tr : Translator} {a : Allocation} (h : tr.Allocated a)
    (hinst : ∀ inst ∈ insts, ∀ tr' a', tr'.Allocated a' →
      tr'.isVirtualAddressing = tr.isVirtualAddressing →
        Extends (Q inst) tr' ((around inst).run tr').2) :
    ∃ tr', Extends (P insts) tr tr' ∧ ((translateAll Inst.translate insts).run tr).2 =
      { tr' with cur_inst_ := tr.cur_inst_ + insts.length } := by
  induction insts generalizing tr a with
  | nil => exact ⟨tr, ⟨⟨[], (List.append_nil _).symm, hnil⟩, ⟨a, h⟩, rfl⟩, rfl⟩
  | cons inst rest ih =>
    have h₁ := hinst inst List.mem_cons_self tr a h rfl
    have hrun : (translateAll Inst.translate (inst :: rest)).run tr =
        (translateAll Inst.translate rest).run { ((around inst).run tr).2 with
          cur_inst_ := ((around inst).run tr).2.cur_inst_ + 1 } := rfl
    rw [hrun]
    generalize ((around inst).run tr).2 = tr₁ at h₁ ⊢
    obtain ⟨a₁, hal⟩ := h₁.allocated
    have hcur : tr₁.cur_inst_ = tr.cur_inst_ := by rw [h₁.same]
    have hvirt : tr₁.isVirtualAddressing = tr.isVirtualAddressing := by rw [h₁.same]
    have hnext : { tr₁ with cur_inst_ := tr₁.cur_inst_ + 1 }.Allocated a₁ :=
      ⟨hal.mapping, hal.nodup, hal.free⟩
    obtain ⟨tr₂, h₂, hr₂⟩ := ih hnext fun i hi tr' a' h' hv ↦
      hinst i (List.mem_cons_of_mem _ hi) tr' a' h' (hv.trans hvirt)
    refine ⟨{ tr₂ with cur_inst_ := tr.cur_inst_ }, h₁.trans ⟨h₂.code, ?_, ?_⟩ (hcons inst rest), ?_⟩
    · obtain ⟨a₂, h₂⟩ := h₂.allocated
      exact ⟨a₂, h₂.mapping, h₂.nodup, h₂.free⟩
    · have hsame := h₂.same
      rw [hsame, ← hcur]
    · rw [hr₂, hcur, List.length_cons]
      dsimp only
      rw [Nat.add_assoc, Nat.add_comm 1]

theorem translateAll_code (hapart : layout.Apart) {insts : List Inst} (ht : IsTrace insts)
    (hsup : ∀ inst ∈ insts, inst.isTranslationSupported = true) {tr : Translator} {a : Allocation}
    (h : tr.Allocated a) (hl : tr.labels = 1) (hstart : tr.func_start_ = 0) :
    ∃ c, ((translateAll Inst.translate insts).run tr).2.code_ = tr.code_ ++ c ∧
      (LoopsFrom tr.cur_inst_ insts → Looping layout clobber c) ∧
      (¬ LoopsFrom tr.cur_inst_ insts → Forward layout clobber c) := by
  obtain ⟨body, last, rfl, hlast, hbody⟩ := ht.split
  obtain ⟨tr₁, h₁, hrun⟩ := translateAll_extends (P := fun _ ↦ Steady layout clobber)
    .nil (fun _ _ _ _ ↦ .append) h
    fun inst hi tr' a' h' _ ↦ steady_around clobber hapart
      (hsup inst (List.mem_append_left _ hi)) (opcode_of_not_isTerminator (hbody inst hi)) h'
  have hslast := hsup last (List.mem_append_right _ (List.mem_singleton_self last))
  obtain ⟨⟨c₁, hc₁, hs₁⟩, ⟨a₁, hal⟩, hsame⟩ := h₁
  have hnext : { tr₁ with cur_inst_ := tr.cur_inst_ + body.length }.Allocated a₁ :=
    ⟨hal.mapping, hal.nodup, hal.free⟩
  have hend : ((translateAll Inst.translate (body ++ [last])).run tr).2.code_ =
      ((around last).run { tr₁ with cur_inst_ := tr.cur_inst_ + body.length }).2.code_ := by
    rw [translateAll_append, hrun]
    rfl
  rw [hend, loopsFrom_append]
  by_cases hb : last.getOpcode = .BRANCH
  · obtain ⟨c, hc, hbranch⟩ := branch_around hslast hb hnext
      (by rw [hsame]; exact hl) (by rw [hsame]; exact hstart)
    refine ⟨c₁ ++ c, ?_, fun h ↦ hbranch.looping h.2 hs₁, fun h ↦ hbranch.forward (fun hz ↦ ?_) hs₁⟩
    · rw [hc, hc₁, List.append_assoc]
    · exact h ⟨hb, hz⟩
  · obtain ⟨⟨c, hc, hs⟩, -, -⟩ := steady_around clobber hapart hslast hb hnext
    refine ⟨c₁ ++ c, ?_, fun h ↦ absurd h.1 hb, fun _ ↦ .inl (hs₁.append hs)⟩
    rw [hc, hc₁, List.append_assoc]

end

end RiscvSim
