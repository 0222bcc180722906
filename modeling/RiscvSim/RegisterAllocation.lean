import RiscvSim.Relocation
import RiscvSim.NativePasses
import RiscvSim.ImmTemplates
import RiscvSim.RegTemplates

namespace RiscvSim

open Isa Ir X86 Results Native State ExecInst Translator

/-- Only registers in `P` change. -/
def WritesOnly (P : Reg → Prop) (s s' : State) : Prop := ∀ r, ¬ P r → s'.regs.get r = s.regs.get r

namespace WritesOnly

variable {P : Reg → Prop}

instance : Std.Refl (WritesOnly P) := ⟨fun _ _ _ ↦ rfl⟩

instance : IsTrans State (WritesOnly P) := ⟨fun _ _ _ h h' r hr ↦ (h' r hr).trans (h r hr)⟩

theorem getReg (reg : Reg) : Keeps (WritesOnly P) (getReg reg) := Keeps.gets _

theorem getPC : Keeps (WritesOnly P) getPC := Keeps.gets _

theorem setPC (pc : U32) : Keeps (WritesOnly P) (setPC pc) := Keeps.modify fun _ _ _ ↦ rfl

theorem setReg {reg : Reg} (h : P reg) (val : U32) : Keeps (WritesOnly P) (setReg reg val) := by
  refine Keeps.modify fun s r hr ↦ s.regs.get_set_of_ne ?_ val
  rintro rfl
  exact hr h

theorem onMmu {α : Type} (x : EStateM Stop MMU α) : Keeps (WritesOnly P) (onMmu x) :=
  Keeps.zoom (Q := fun _ _ ↦ True) (fun _ ↦ trivial) fun _ _ _ _ _ ↦ rfl

variable {inst : Inst}

section

variable (h : P inst.getRd)

include h

theorem compute (x : Except Stop U32) : Keeps (WritesOnly P) (do
    RD inst (← lift x)
    return .nextInst : Run Flow) :=
  (Keeps.lift _).bind fun _ ↦ (setReg h _).bind fun _ ↦ Keeps.pure _

theorem load (n : ℕ) (extend : BitVec (8 * n) → U32) :
    Keeps (WritesOnly P) (ExecInst.load inst n extend) :=
  (getReg _).bind fun _ ↦ (onMmu _).bind fun _ ↦ (setReg h _).bind fun _ ↦ Keeps.pure _

end

theorem store (n : ℕ) : Keeps (WritesOnly P) (ExecInst.store inst n) :=
  (getReg _).bind fun _ ↦ (getReg _).bind fun _ ↦ (onMmu _).bind fun _ ↦ Keeps.pure _

theorem branch (offset : U32) (taken : U32 → U32 → Bool) :
    Keeps (WritesOnly P) (ExecInst.branch inst offset taken) :=
  getPC.bind fun _ ↦ (getReg _).bind fun _ ↦ (getReg _).bind fun _ ↦ (setPC _).bind fun _ ↦ Keeps.pure _

end WritesOnly

theorem exec_writesOnly {inst : Inst} (hsup : inst.isTranslationSupported = true) (offset : U32) :
    Keeps (WritesOnly inst.Writes) (inst.func_.exec inst offset) := by
  have hrd : inst.isRd = true → inst.Writes inst.getRd := fun h ↦ Inst.writes_iff.mpr ⟨h, rfl⟩
  obtain ⟨imm, rs1, rs2, rd, c, hc⟩ := inst
  cases c with
  | LUI => exact (WritesOnly.setReg (hrd rfl) _).bind fun _ ↦ Keeps.pure _
  | AUIPC => exact WritesOnly.getPC.bind fun _ ↦ (WritesOnly.setReg (hrd rfl) _).bind fun _ ↦ Keeps.pure _
  | JAL => exact WritesOnly.getPC.bind fun _ ↦ (WritesOnly.setReg (hrd rfl) _).bind fun _ ↦
      (WritesOnly.setPC _).bind fun _ ↦ Keeps.pure _
  | JALR => exact WritesOnly.getPC.bind fun _ ↦ (WritesOnly.setReg (hrd rfl) _).bind fun _ ↦
      (WritesOnly.getReg _).bind fun _ ↦ (WritesOnly.setPC _).bind fun _ ↦ Keeps.pure _
  | BEQ | BNE | BLT | BGE | BLTU | BGEU => exact WritesOnly.branch _ _
  | LB | LH | LW | LBU | LHU => exact WritesOnly.load (hrd rfl) _ _
  | SB | SH | SW => exact WritesOnly.store _
  | ADDI | SLTI | SLTIU | XORI | ORI | ANDI | SLLI | SRLI | SRAI => 
    exact (WritesOnly.getReg _).bind fun _ ↦ WritesOnly.compute (hrd rfl) _
  | ADD | SUB | SLL | SLT | SLTU | XOR | SRL | SRA | OR | AND | MUL | MULH =>
    exact (WritesOnly.getReg _).bind fun _ ↦ (WritesOnly.getReg _).bind fun _ ↦ WritesOnly.compute (hrd rfl) _
  | UNDEFINED => exact absurd hc (by decide)
  | _ => cases hsup

namespace Translator

/-- The instruction at index `i` of the trace is next. -/
structure At (insts : List Inst) (virt : Bool) (i : ℕ) (tr : Translator) : Prop where
  func_start : tr.func_start_ = 0
  cur_inst : tr.cur_inst_ = i
  liveness : tr.liveness_ = calcLiveness insts
  virt : tr.isVirtualAddressing = virt

def held (layout : Layout) (clobber : Clobber) (tr : Translator) (m : Machine State) (r : Reg) :
    Except Stop U32 :=
  m.value (env layout clobber) 32 (tr.getReg r)

/-- The template appends code, with labels of its own at most, and leaves the allocation alone. -/
def PlainOn (tr : Translator) (x : Tr Unit) : Prop :=
  ∃ c hi, tr.labels ≤ hi ∧ (∀ l, .label l ∈ c → l < hi) ∧
    ∀ pre, x.run { tr with code_ := pre } = ((), { tr with code_ := pre ++ c, labels := hi })

def Plain (insts : List Inst) (virt : Bool) (i : ℕ) (x : Tr Unit) : Prop :=
  ∀ (tr : Translator) (a : Allocation), tr.Allocated a → tr.At insts virt i → PlainOn tr x

/-- The machine has the state of the interpreter beside the registers and the count. -/
def Mirrors (m : Machine State) (s : State) : Prop :=
  m.world = { s with regs := m.world.regs, executed_insts := m.world.executed_insts }

/-- The result of the instruction is where `rd` is kept, and every other register where it was. -/
structure Put (layout : Layout) (clobber : Clobber) (tr : Translator) (inst : Inst) (s' : State)
    (m m' : Machine State) : Prop where
  ready : Ready layout m'
  mirrors : Mirrors m' s'
  insts : m'.world.executed_insts = m.world.executed_insts
  result : ∀ r, r ≠ 0 → inst.Writes r → tr.held layout clobber m' r = .ok (s'.regs.get r)
  others : ∀ r, ¬ inst.Writes r → tr.held layout clobber m' r = tr.held layout clobber m r

/-- What a template is for: it takes the step from `s` to `s'` on whatever allocation, given the
registers that the instruction reads. -/
def Puts (layout : Layout) (clobber : Clobber) (insts : List Inst) (virt : Bool) (x : Tr Unit)
    (inst : Inst) (i : ℕ) (s s' : State) : Prop :=
  ∀ tr a m, tr.Allocated a → tr.At insts virt i → Ready layout m → Mirrors m s →
    (∀ r, inst.Reads r → tr.held layout clobber m r = .ok (s.regs.get r)) →
    ∃ m', Through (env layout clobber) tr.labels (emitted x tr) m m' ∧
      Put layout clobber tr inst s' m m'

def PutsOn (layout : Layout) (clobber : Clobber) (tr : Translator) (x : Tr Unit) (inst : Inst)
    (s s' : State) : Prop :=
  ∀ a m, tr.Allocated a → Ready layout m → Mirrors m s →
    (∀ r, inst.Reads r → tr.held layout clobber m r = .ok (s.regs.get r)) →
    ∃ m', Through (env layout clobber) tr.labels (emitted x tr) m m' ∧
      Put layout clobber tr inst s' m m'

theorem Puts.on {layout : Layout} {clobber : Clobber} {insts : List Inst} {virt : Bool} {x : Tr Unit}
    {inst : Inst} {i : ℕ} {s s' : State} {tr : Translator}
    (h : Puts layout clobber insts virt x inst i s s') (hat : tr.At insts virt i) :
    PutsOn layout clobber tr x inst s s' :=
  fun a m hal ↦ h tr a m hal hat

def before (translate : Inst → Tr Unit) (insts : List Inst) (virt : Bool) (k : ℕ) : Translator :=
  ((translateAll translate (insts.take k)).run (entered insts virt)).2

/-- The translator at the template of that instruction. -/
def prepared (translate : Inst → Tr Unit) (insts : List Inst) (virt : Bool) (k : ℕ) (inst : Inst) :
    Translator :=
  ((preWork inst).run (before translate insts virt k)).2

/-- No host register is given out twice, and the pool holds just those that are not given out. -/
structure PoolExact (tr : Translator) : Prop where
  inj : ∀ r r' g w w', tr.reg_mapping_ r = .reg g w → tr.reg_mapping_ r' = .reg g w' → r = r'
  nodup : tr.reg_pool_.Nodup
  free : ∀ g, g ∈ tr.reg_pool_ ↔ g ∈ pool ∧ ∀ r w, tr.reg_mapping_ r ≠ .reg g w

namespace Allocated

variable {tr : Translator} {a : Allocation} (h : tr.Allocated a)

include h

theorem mapping_eq_reg {r : Reg} {g : Gp} {w : ℕ} :
    tr.reg_mapping_ r = .reg g w ↔ a.loc r = .host g ∧ w = 32 := by
  rw [h.mapping]
  cases a.loc r with
  | host g' =>
    rw [Loc.op, Operand.reg.injEq, Loc.host.injEq, eq_comm (a := w)]
  | slot r' =>
    constructor
    · intro he
      cases he
    · rintro ⟨he, -⟩
      cases he

theorem poolExact : tr.PoolExact where
  inj r r' g w w' hr hr' :=
    a.inj r r' ((h.mapping_eq_reg.mp hr).1.trans (h.mapping_eq_reg.mp hr').1.symm)
  nodup := h.nodup
  free g := by
    rw [h.free]
    refine and_congr_right fun _ ↦ ⟨fun hf r w hr ↦ hf r (h.mapping_eq_reg.mp hr).1, fun hf r hr ↦ ?_⟩
    exact hf r 32 (h.mapping_eq_reg.mpr ⟨hr, rfl⟩)

theorem held_eq {layout : Layout} (clobber : Clobber) {m : Machine State} (hm : Ready layout m) (r : Reg) :
    tr.held layout clobber m r = .ok (valueOf m (a.src r)) := by
  rw [held, h.uses, value_op hm]

theorem held_of_ne {layout : Layout} (clobber : Clobber) {m : Machine State} (hm : Ready layout m)
    {r : Reg} (hr : r ≠ 0) : tr.held layout clobber m r = .ok (look m (a.loc r)) := by
  rw [h.held_eq clobber hm, a.src_of_ne hr]
  rfl

end Allocated

/-- What holds of the translator between two instructions: what is in a host register is live. -/
structure Between (insts : List Inst) (virt : Bool) (k : ℕ) (tr : Translator) (a : Allocation) : Prop where
  allocated : tr.Allocated a
  next : tr.At insts virt k
  labels : ∀ l, .label l ∈ tr.code_ → l < tr.labels
  live : ∀ r, a.loc r ≠ .slot r → r ≠ 0 ∧ liveIn (insts.drop k) r = true

theorem between_entered (insts : List Inst) (virt : Bool) :
    Between insts virt 0 (entered insts virt) .slots where
  allocated := allocated_entered insts virt
  next := ⟨rfl, rfl, rfl, rfl⟩
  labels l hl := by
    simp only [entered, List.mem_cons, Item.label.injEq, reduceCtorEq, List.not_mem_nil, or_false] at hl
    rw [hl]
    exact Nat.zero_lt_one
  live r hr := absurd rfl hr

theorem before_succ {translate : Inst → Tr Unit} {insts : List Inst} {virt : Bool} {k : ℕ} {inst : Inst}
    (hi : insts[k]? = some inst) : before translate insts virt (k + 1) =
      let tr := ((postWork inst).run ((translate inst).run
        ((preWork inst).run (before translate insts virt k)).2).2).2
      { tr with cur_inst_ := tr.cur_inst_ + 1 } := by
  rw [before, List.take_add_one, hi, translateAll_append]
  rfl

end Translator

namespace Relocates

variable {layout : Layout} {clobber : Clobber} {S : Reg → Prop} {tr tr' : Translator}
  {a a' : Allocation} (h : Relocates layout clobber S tr a tr' a')
  (hl : ∀ l, .label l ∈ tr.code_ → l < tr.labels)

include h hl

theorem labels : ∀ l, .label l ∈ tr'.code_ → l < tr'.labels := by
  obtain ⟨c, hc, hs, -⟩ := h.code
  intro l hm
  rw [hc, List.mem_append] at hm
  rw [h.same]
  exact hl l (hm.resolve_right (hs.not_label l))

theorem through {m₀ m : Machine State} (ht : Through (env layout clobber) 0 tr.code_ m₀ m)
    (hm : Ready layout m) : ∃ m', Through (env layout clobber) 0 tr'.code_ m₀ m' ∧
      Transports layout a a' S m m' := by
  obtain ⟨c, hc, -, hrun⟩ := h.code
  obtain ⟨m', hb, hmoved⟩ := hrun m hm
  rw [hc]
  exact ⟨m', ht.append (.of_block hb) (Nat.zero_le _) hl, hmoved⟩

end Relocates

namespace Translator

section

variable (layout : Layout) (clobber : Clobber) {insts : List Inst} {virt : Bool} {k : ℕ}
  {tr : Translator} {a : Allocation} {inst : Inst} {x : Tr Unit}

theorem Between.live_eq (h : Between insts virt k tr a) (hi : insts[k]? = some inst) :
    tr.live = liveIn (insts.drop (k + 1)) := by
  obtain ⟨hlt, -⟩ := List.getElem?_eq_some_iff.mp hi
  funext r
  rw [Translator.live, h.next.liveness, h.next.cur_inst, List.getD_eq_getElem?_getD, calcLiveness_get insts hlt,
    Option.getD_some]

theorem At.relocates {tr' : Translator} {a' : Allocation} {S : Reg → Prop} (h : tr.At insts virt k)
    (hr : Relocates layout clobber S tr a tr' a') : tr'.At insts virt k := by
  rw [hr.same]
  exact ⟨h.func_start, h.cur_inst, h.liveness, h.virt⟩

omit layout clobber in
theorem Between.prepared (h : Between insts virt k tr a) (inst : Inst) :
    ((preWork inst).run tr).2.At insts virt k := by
  obtain ⟨a₁, hpre, -⟩ := preWork_relocates ⟨0, 0⟩ (fun _ _ _ ↦ 0) h.allocated inst
  exact h.next.relocates ⟨0, 0⟩ (fun _ _ _ ↦ 0) hpre

omit layout clobber in
theorem Plain.on (hx : Plain insts virt k x) (h : Between insts virt k tr a) (inst : Inst) :
    PlainOn ((preWork inst).run tr).2 x := by
  obtain ⟨a₁, hpre, -⟩ := preWork_relocates ⟨0, 0⟩ (fun _ _ _ ↦ 0) h.allocated inst
  exact hx _ a₁ hpre.allocated (h.prepared inst)

theorem Between.round (h : Between insts virt k tr a) (hi : insts[k]? = some inst)
    (hx : PlainOn ((preWork inst).run tr).2 x) :
    let tr₁ := ((preWork inst).run tr).2
    let tr₃ := ((postWork inst).run (x.run tr₁).2).2
    ∃ a₁ a' hi, tr₁.labels ≤ hi ∧ (∀ l, .label l ∈ emitted x tr₁ → l < hi) ∧
      Relocates layout clobber (fun r ↦ inst.Reads r ∨ ¬ inst.Writes r) tr a tr₁ a₁ ∧
      Relocates layout clobber (fun _ ↦ True)
        { tr₁ with code_ := tr₁.code_ ++ emitted x tr₁, labels := hi } a₁ tr₃ a' ∧
      Between insts virt (k + 1) { tr₃ with cur_inst_ := tr₃.cur_inst_ + 1 } a' := by
  intro tr₁ tr₃
  have hlive := h.live_eq hi
  obtain ⟨a₁, hpre, hloc₁⟩ := preWork_relocates layout clobber h.allocated inst
  change Relocates layout clobber _ tr a tr₁ a₁ at hpre
  have hat₁ := h.next.relocates layout clobber hpre
  obtain ⟨c, hi', hle, hlabels, hrun⟩ := hx
  change tr₁.labels ≤ hi' at hle
  have hemitted : emitted x tr₁ = c := by
    rw [emitted, hrun []]
    rfl
  rw [hemitted]
  have hrun₁ : x.run tr₁ = ((), { tr₁ with code_ := tr₁.code_ ++ c, labels := hi' }) := hrun tr₁.code_
  have htr₃ : tr₃ = ((postWork inst).run { tr₁ with code_ := tr₁.code_ ++ c, labels := hi' }).2 := by
    change ((postWork inst).run (x.run tr₁).2).2 = _
    rw [hrun₁]
  have hal₁ : { tr₁ with code_ := tr₁.code_ ++ c, labels := hi' }.Allocated a₁ :=
    ⟨hpre.allocated.mapping, hpre.allocated.nodup, hpre.allocated.free⟩
  obtain ⟨a', hpost, hloc', hslot⟩ := postWork_relocates layout clobber hal₁ inst
  rw [← htr₃] at hpost
  have hlive₁ : { tr₁ with code_ := tr₁.code_ ++ c, labels := hi' }.live = tr.live := hpre.live_eq
  rw [hlive₁, hlive] at hslot
  refine ⟨a₁, a', hi', hle, hlabels, hpre, hpost, ?_, ?_, ?_, ?_⟩
  · exact ⟨hpost.allocated.mapping, hpost.allocated.nodup, hpost.allocated.free⟩
  · have hat₂ : { tr₁ with code_ := tr₁.code_ ++ c, labels := hi' }.At insts virt k :=
      ⟨hat₁.func_start, hat₁.cur_inst, hat₁.liveness, hat₁.virt⟩
    have hat₃ := hat₂.relocates layout clobber hpost
    exact ⟨hat₃.func_start, congrArg (· + 1) hat₃.cur_inst, hat₃.liveness, hat₃.virt⟩
  · refine hpost.labels fun l hl ↦ ?_
    rcases List.mem_append.mp hl with hl | hl
    · exact (hpre.labels h.labels l hl).trans_le hle
    · exact hlabels l hl
  · intro r hr
    have hkeep : a'.loc r = a₁.loc r := (hloc' r).resolve_right hr
    rcases hloc₁ r with he | hr'
    · obtain ⟨hne, hbefore⟩ := h.live r (by rw [← he, ← hkeep]; exact hr)
      refine ⟨hne, ?_⟩
      rw [List.drop_eq_getElem_cons (List.getElem?_eq_some_iff.mp hi).1,
        (List.getElem?_eq_some_iff.mp hi).2, liveIn, liveBefore_iff] at hbefore
      by_contra hdead
      rcases hbefore with hreads | ⟨-, hlater⟩
      · exact hr (hslot r hne (.inl hreads) (Bool.eq_false_of_not_eq_true hdead))
      · exact hdead hlater
    · rw [hlive] at hr'
      exact hr'

end

theorem Mirrors.keeps {layout : Layout} {m m' : Machine State} {s : State} (h : Mirrors m s)
    (hk : Native.Keeps layout m m') :
    Mirrors m' s ∧ m'.world.executed_insts = m.world.executed_insts := by
  have hinsts : m'.world.executed_insts = m.world.executed_insts := by rw [hk.world]
  refine ⟨?_, hinsts⟩
  rw [Mirrors, hinsts]
  conv_lhs => rw [hk.world, h]

/-- The machine between two instructions of a run of the code: the registers have the values of
the interpreter's. -/
structure Holding (layout : Layout) (clobber : Clobber) (m₀ : Machine State) (count : U64)
    (tr : Translator) (a : Allocation) (s : State) (m : Machine State) : Prop where
  through : Through (env layout clobber) 0 tr.code_ m₀ m
  ready : Ready layout m
  mirrors : Mirrors m s
  insts : m.world.executed_insts = count
  value : ∀ r, r ≠ 0 → look m (a.loc r) = s.regs.get r

namespace Holding

variable {layout : Layout} {clobber : Clobber} {m₀ m : Machine State} {count : U64} {tr : Translator}
  {a : Allocation} {s s' : State} {insts : List Inst} {virt : Bool} {k : ℕ} {inst : Inst} {x : Tr Unit}
  (h : Holding layout clobber m₀ count tr a s m) (hb : Between insts virt k tr a)

include h

theorem world_eq (hslots : ∀ r, r ≠ 0 → a.loc r = .slot r) :
    m.world = { s with executed_insts := count } := by
  have hregs : m.world.regs = s.regs := by
    refine Regs.ext fun r ↦ ?_
    by_cases hr : r = 0
    · rw [hr, Regs.get_zero, Regs.get_zero]
    · rw [← h.value r hr, hslots r hr]
      rfl
  have hmirrors := h.mirrors
  rw [Mirrors, hregs, h.insts] at hmirrors
  exact hmirrors

include hb

theorem reads {tr₁ : Translator} {a₁ : Allocation}
    (hpre : Relocates layout clobber (fun r ↦ inst.Reads r ∨ ¬ inst.Writes r) tr a tr₁ a₁) :
    ∃ m₁, Through (env layout clobber) 0 tr₁.code_ m₀ m₁ ∧
      Transports layout a a₁ (fun r ↦ inst.Reads r ∨ ¬ inst.Writes r) m m₁ ∧
      ∀ r, inst.Reads r → tr₁.held layout clobber m₁ r = .ok (s.regs.get r) := by
  obtain ⟨m₁, hthrough, hmoved⟩ := hpre.through hb.labels h.through h.ready
  refine ⟨m₁, hthrough, hmoved, fun r hr ↦ ?_⟩
  by_cases hz : r = 0
  · subst hz
    rw [hpre.allocated.held_eq clobber hmoved.ready, a₁.src_zero, s.regs.get_zero]
    rfl
  · rw [hpre.allocated.held_of_ne clobber hmoved.ready hz, hmoved.value r hz (.inl hr), h.value r hz]

theorem round (hi : insts[k]? = some inst) (hsup : inst.isTranslationSupported = true)
    (hx : PlainOn ((preWork inst).run tr).2 x) {offset : U32} {flow : Flow} (hexec : (inst.func_.exec inst offset).run s = .ok flow s')
    (hputs : PutsOn layout clobber ((preWork inst).run tr).2 x inst s s') :
    let tr₃ := ((postWork inst).run (x.run ((preWork inst).run tr).2).2).2
    ∃ a' m', Between insts virt (k + 1) { tr₃ with cur_inst_ := tr₃.cur_inst_ + 1 } a' ∧
      Holding layout clobber m₀ count { tr₃ with cur_inst_ := tr₃.cur_inst_ + 1 } a' s' m' := by
  intro tr₃
  obtain ⟨a₁, a', hi', hle, hlabels, hpre, hpost, hnext⟩ := hb.round layout clobber hi hx
  obtain ⟨m₁, hthrough₁, hmoved₁, hreads⟩ := h.reads hb hpre
  have hlabels₁ := hpre.labels hb.labels
  set tr₁ := ((preWork inst).run tr).2
  obtain ⟨hmirrors₁, hinsts₁⟩ := h.mirrors.keeps hmoved₁.toKeeps
  obtain ⟨m₂, htemplate, hput⟩ := hputs a₁ m₁ hpre.allocated hmoved₁.ready hmirrors₁ hreads
  have hthrough₂ := hthrough₁.append htemplate (Nat.zero_le _) hlabels₁
  have hlabels₂ : ∀ l, .label l ∈ tr₁.code_ ++ emitted x tr₁ → l < hi' := by
    intro l hl
    rcases List.mem_append.mp hl with hl | hl
    · exact (hlabels₁ l hl).trans_le hle
    · exact hlabels l hl
  obtain ⟨m₃, hthrough₃, hmoved₃⟩ := hpost.through hlabels₂ hthrough₂ hput.ready
  obtain ⟨hmirrors₃, hinsts₃⟩ := hput.mirrors.keeps hmoved₃.toKeeps
  refine ⟨a', m₃, hnext, hthrough₃, hmoved₃.ready, hmirrors₃, ?_, fun r hr ↦ ?_⟩
  · rw [hinsts₃, hput.insts, hinsts₁, h.insts]
  · have hheld := hpre.allocated.held_of_ne clobber hput.ready hr
    rw [hmoved₃.value r hr trivial]
    by_cases hw : inst.Writes r
    · rw [hput.result r hr hw] at hheld
      exact (Except.ok.inj hheld).symm
    · rw [hput.others r hw, hpre.allocated.held_of_ne clobber hmoved₁.ready hr] at hheld
      rw [← Except.ok.inj hheld, hmoved₁.value r hr (.inr hw), h.value r hr]
      exact ((exec_writesOnly hsup offset).of_ok hexec r hw).symm

omit hb in
/-- Behind the last instruction nothing is live, so that all registers are in their slots. -/
theorem ends (hb : Between insts virt insts.length tr a) :
    (∀ r, a.loc r = .slot r) ∧ m.world = { s with executed_insts := count } := by
  have hslots : ∀ r, a.loc r = .slot r := by
    intro r
    by_contra hr
    have hlive := (hb.live r hr).2
    rw [List.drop_length] at hlive
    cases hlive
  exact ⟨hslots, h.world_eq fun r _ ↦ hslots r⟩

end Holding

section

variable {layout : Layout} {clobber : Clobber} {translate : Inst → Tr Unit} {insts : List Inst}
  {virt : Bool}

variable (virt) in
theorem between_before {k : ℕ} (hk : k ≤ insts.length)
    (hplain : ∀ i < k, ∀ inst, insts[i]? = some inst →
      PlainOn (prepared translate insts virt i inst) (translate inst)) :
    ∃ a, Between insts virt k (before translate insts virt k) a := by
  induction k with
  | zero => exact ⟨_, between_entered insts virt⟩
  | succ k ih =>
    obtain ⟨a, hb⟩ := ih (Nat.le_of_succ_le hk) fun i hi ↦ hplain i (Nat.lt_succ_of_lt hi)
    have hi := List.getElem?_eq_getElem hk
    obtain ⟨-, a', -, -, -, -, -, hnext⟩ := hb.round ⟨0, 0⟩ (fun _ _ _ ↦ 0) hi
      (hplain k (Nat.lt_succ_self k) _ hi)
    rw [before_succ hi]
    exact ⟨a', hnext⟩

theorem at_prepared {k : ℕ} {inst : Inst} (hk : k ≤ insts.length)
    (hplain : ∀ i < k, ∀ inst, insts[i]? = some inst →
      PlainOn (prepared translate insts virt i inst) (translate inst)) :
    (prepared translate insts virt k inst).At insts virt k := by
  obtain ⟨a, hb⟩ := between_before virt hk hplain
  exact hb.prepared inst

theorem plainOn_prepared {k : ℕ}
    (hplain : ∀ i < k, ∀ inst, insts[i]? = some inst → Plain insts virt i (translate inst)) :
    ∀ i < k, ∀ inst, insts[i]? = some inst →
      PlainOn (prepared translate insts virt i inst) (translate inst) := by
  intro i
  induction i using Nat.strong_induction_on with
  | _ i ih =>
    intro hi inst hinst
    have hlt := (List.getElem?_eq_some_iff.mp hinst).1
    obtain ⟨a, hb⟩ := between_before virt hlt.le fun j hj ↦ ih j hj (hj.trans hi)
    exact (hplain i hi inst hinst).on hb inst

theorem prefix_before {k : ℕ} {inst : Inst} (hi : insts[k]? = some inst)
    (hplain : ∀ i ≤ k, ∀ inst, insts[i]? = some inst →
      PlainOn (prepared translate insts virt i inst) (translate inst)) :
    let tr := ((preWork inst).run (before translate insts virt k)).2
    (before translate insts virt k).code_ <+: tr.code_ ++ emitted (translate inst) tr ∧
      tr.code_ ++ emitted (translate inst) tr <+: (before translate insts virt (k + 1)).code_ := by
  have hlt := (List.getElem?_eq_some_iff.mp hi).1
  obtain ⟨a, hb⟩ := between_before virt hlt.le fun i hlt ↦ hplain i hlt.le
  obtain ⟨_, _, _, -, -, hpre, hpost, -⟩ := hb.round ⟨0, 0⟩ (fun _ _ _ ↦ 0) hi (hplain k le_rfl _ hi)
  obtain ⟨c, hc, -⟩ := hpre.code
  obtain ⟨d, hd, -⟩ := hpost.code
  rw [before_succ hi]
  constructor
  · exact List.IsPrefix.trans ⟨c, hc.symm⟩ (List.prefix_append _ _)
  · exact ⟨d, hd.symm⟩

theorem before_extends {k j : ℕ} (hkj : k ≤ j) (hj : j ≤ insts.length)
    (hplain : ∀ i < j, ∀ inst, insts[i]? = some inst →
      PlainOn (prepared translate insts virt i inst) (translate inst)) :
    (before translate insts virt k).code_ <+: (before translate insts virt j).code_ := by
  induction j, hkj using Nat.le_induction with
  | base => exact List.prefix_rfl
  | succ j hkj ih =>
    obtain ⟨hfirst, hsecond⟩ := prefix_before (List.getElem?_eq_getElem hj) fun i hle ↦
      hplain i (Nat.lt_succ_of_le hle)
    have hrest := ih (Nat.le_of_succ_le hj) fun i hlt ↦ hplain i (Nat.lt_succ_of_lt hlt)
    exact hrest.trans (hfirst.trans hsecond)

variable (clobber insts virt) in
theorem holding_entered {m₀ : Machine State} (hm : Ready layout m₀) : ∃ m,
    Holding layout clobber m₀ (m₀.world.executed_insts + BitVec.ofNat 64 insts.length)
      (entered insts virt) .slots m₀.world m := by
  obtain ⟨f, hcount⟩ := exec_count clobber insts hm
  refine ⟨_, .of_block (run_bind_of_ok hcount), hm, rfl, rfl, fun r hr ↦ ?_⟩
  rw [look_withFlags]
  rfl

section

variable {n : ℕ} {s : ℕ → State} {m₀ : Machine State}
  (hsup : ∀ inst ∈ insts, inst.isTranslationSupported = true)
  (hplain : ∀ i < n, ∀ inst, insts[i]? = some inst →
    PlainOn (prepared translate insts virt i inst) (translate inst))
  (hexec : ∀ i < n, ∀ inst, insts[i]? = some inst → ∃ flow,
    (inst.func_.exec inst (BitVec.ofNat 32 (4 * i))).run (s i) = .ok flow (s (i + 1)))
  (hputs : ∀ i < n, ∀ inst, insts[i]? = some inst →
    PutsOn layout clobber (prepared translate insts virt i inst) (translate inst) inst (s i) (s (i + 1)))
  (hm : Ready layout m₀) (hworld : m₀.world = s 0)

include hsup hplain hexec hputs hm hworld

theorem holding_prepared {k : ℕ} (hk : k ≤ n) (hlen : k ≤ insts.length) : ∃ a m,
    Between insts virt k (before translate insts virt k) a ∧
      Holding layout clobber m₀ (m₀.world.executed_insts + BitVec.ofNat 64 insts.length)
        (before translate insts virt k) a (s k) m := by
  induction k with
  | zero =>
    obtain ⟨m, h⟩ := holding_entered clobber insts virt hm
    rw [hworld] at h ⊢
    exact ⟨_, m, between_entered insts virt, h⟩
  | succ k ih =>
    obtain ⟨a, m, hb, h⟩ := ih (Nat.le_of_succ_le hk) (Nat.le_of_succ_le hlen)
    have hi := List.getElem?_eq_getElem hlen
    have hmem := List.getElem_mem hlen
    obtain ⟨flow, hrun⟩ := hexec k hk _ hi
    obtain ⟨a', m', hnext, hround⟩ := h.round hb hi (hsup _ hmem) (hplain k hk _ hi) hrun
      (hputs k hk _ hi)
    rw [before_succ hi]
    exact ⟨a', m', hnext, hround⟩

end

end

section

variable {layout : Layout} {clobber : Clobber} {insts : List Inst} {virt : Bool} {i : ℕ} {x : Tr Unit}
  {inst : Inst} {s : State}

theorem plain_of_appends {P : NativeCode → Prop} (hP : ∀ c, P c → Straight c)
    (h : ∀ tr a, tr.Allocated a → Appends P x tr) : Plain insts virt i x := by
  intro tr a hal _
  obtain ⟨c, hrun, hc⟩ := h tr a hal
  exact ⟨c, tr.labels, le_rfl, fun l hl ↦ absurd hl ((hP c hc).not_label l), hrun⟩

/-- Every template but the branches appends straight code. -/
theorem plain_of_supported (hsup : inst.isTranslationSupported = true) (hb : inst.getOpcode ≠ .BRANCH) :
    Plain insts virt i inst.translate := by
  obtain ⟨func, -, htr, hcond⟩ := translate_func hsup
  refine plain_of_appends (fun _ ↦ id) fun tr a hal ↦ ?_
  have hsteady : Appends (Steady _ fun _ _ _ ↦ 0) (func.translate inst) tr :=
    steady_translate hal.uses inst apart_upperHalf (hcond.mpr hb)
  rw [htr]
  exact hsteady.mono fun c hc ↦ hc.straight

theorem At.offset {tr : Translator} (h : tr.At insts virt i) :
    tr.getOffset.setWidth 32 = BitVec.ofNat 32 (4 * i) := by
  rw [getOffset, h.cur_inst, BitVec.setWidth_ofNat_of_le (by decide), Nat.mul_comm]

theorem Put.of_holds {tr : Translator} {a : Allocation} {m m' : Machine State} {s' : State} {pc : U32}
    {R : Regs} (hal : tr.Allocated a) (hm : Ready layout m) (hmirrors : Mirrors m s)
    (h : a.Holds layout (setPc m pc) m' R) (hs : s' = { s with regs := s'.regs, pc := pc })
    (hresult : ∀ r, r ≠ 0 → inst.Writes r → R.get r = s'.regs.get r)
    (hothers : ∀ r, ¬ inst.Writes r → R.get r = (a.regs m).get r) :
    Put layout clobber tr inst s' m m' := by
  have hworld : m'.world = { m.world.withPC pc with regs := m'.world.regs } := h.world
  have hheld : ∀ r, tr.held layout clobber m' r = .ok (R.get r) := by
    intro r
    rw [hal.held_eq clobber h.ready, h.value]
  refine ⟨h.ready, ?_, by rw [hworld]; rfl, fun r hr hw ↦ ?_, fun r hw ↦ ?_⟩
  · rw [Mirrors, hs]
    conv_lhs => rw [hworld, hmirrors]
    conv_rhs => rw [hworld]
    rfl
  · rw [hheld, hresult r hr hw]
  · rw [hheld, hothers r hw, hal.held_eq clobber hm]
    rfl

theorem values_of_held {tr : Translator} {a : Allocation} {m : Machine State} (hal : tr.Allocated a)
    (hm : Ready layout m)
    (hreads : ∀ r, inst.Reads r → tr.held layout clobber m r = .ok (s.regs.get r)) (r : Reg)
    (hr : inst.Reads r) : (a.regs m).get r = s.regs.get r := by
  have hheld := hreads r hr
  rw [hal.held_eq clobber hm] at hheld
  exact Except.ok.inj hheld

theorem putsOn_of_emits {tr : Translator} (pc : U32) {v : U32} (hwrites : inst.Writes inst.getRd)
    (h : ∀ a m, tr.Allocated a → Ready layout m → Mirrors m s →
      (∀ r, inst.Reads r → (a.regs m).get r = s.regs.get r) →
      Emits (env layout clobber) x tr m fun m' ↦
        a.Holds layout (setPc m pc) m' ((a.regs m).set inst.getRd v)) :
    PutsOn layout clobber tr x inst s { s with regs := s.regs.set inst.getRd v, pc := pc } := by
  intro a m hal hm hmirrors hreads
  obtain ⟨m', hb, hholds⟩ := (h a m hal hm hmirrors (values_of_held hal hm hreads)).run
  refine ⟨m', .of_block hb, .of_holds hal hm hmirrors hholds rfl (fun r hr hw ↦ ?_) fun r hw ↦ ?_⟩
  · rw [← (Inst.writes_iff.mp hw).2] at hr ⊢
    rw [Regs.get_set_self _ hr, Regs.get_set_self _ hr]
  · refine Regs.get_set_of_ne _ ?_ v
    rintro rfl
    exact hw hwrites

theorem Mirrors.mmu {m : Machine State} (h : Mirrors m s) : m.world.mmu = s.mmu := by rw [h]

theorem setPc_self {m : Machine State} (h : Mirrors m s) : setPc m s.pc = m := by
  have hpc : s.pc = m.world.pc := by rw [h]
  rw [hpc]
  rfl

/-- It leaves the program counter alone. -/
theorem putsOn_of_value {tr : Translator} {v : U32} (hwrites : inst.Writes inst.getRd)
    (h : ∀ a m, tr.Uses a → Ready layout m → m.world.mmu = s.mmu →
      (∀ r, inst.Reads r → (a.regs m).get r = s.regs.get r) →
      Emits (env layout clobber) x tr m fun m' ↦
        a.Holds layout m m' ((a.regs m).set inst.getRd v)) :
    PutsOn layout clobber tr x inst s { s with regs := s.regs.set inst.getRd v } := by
  refine putsOn_of_emits s.pc hwrites fun a m hal hm hmirrors hreads ↦ ?_
  rw [setPc_self hmirrors]
  exact h a m hal.uses hm hmirrors.mmu hreads

theorem puts_of_emits (pc : U32) {v : U32} (hwrites : inst.Writes inst.getRd)
    (h : ∀ tr a m, tr.Allocated a → tr.At insts virt i → Ready layout m → m.world.pc = s.pc →
      (∀ r, inst.Reads r → (a.regs m).get r = s.regs.get r) →
      Emits (env layout clobber) x tr m fun m' ↦
        a.Holds layout (setPc m pc) m' ((a.regs m).set inst.getRd v)) :
    Puts layout clobber insts virt x inst i s
      { s with regs := s.regs.set inst.getRd v, pc := pc } := by
  intro tr a m hal hat
  exact putsOn_of_emits pc hwrites (fun a m hal hm hmirrors ↦ h tr a m hal hat hm (by rw [hmirrors])) a m hal

theorem writes_immediate (hcmd : inst.getCmd ∈ immediateTypes) : inst.Writes inst.getRd := by
  obtain ⟨imm, rs1, rs2, rd, c, hc⟩ := inst
  simp only [immediateTypes, operationTypes, Inst.getCmd, List.cons_append, List.nil_append, List.mem_cons,
    List.not_mem_nil, or_false] at hcmd
  rcases hcmd with rfl | rfl | rfl | rfl | rfl | rfl | rfl | rfl
  all_goals exact Inst.writes_iff.mpr ⟨rfl, rfl⟩

theorem reads_operation (hcmd : inst.getCmd ∈ operationTypes) : inst.Reads inst.getRs1 := by
  obtain ⟨imm, rs1, rs2, rd, c, hc⟩ := inst
  simp only [operationTypes, Inst.getCmd, List.mem_cons, List.not_mem_nil, or_false] at hcmd
  rcases hcmd with rfl | rfl | rfl | rfl | rfl | rfl
  all_goals exact Inst.reads_iff.mpr (.inl ⟨rfl, rfl⟩)

theorem computed_congr (hcmd : inst.getCmd ∈ immediateTypes) {s s' : State} (hpc : s'.pc = s.pc)
    (hreads : ∀ r, inst.Reads r → s'.regs.get r = s.regs.get r) (offset : U32) :
    computed inst offset s' = computed inst offset s := by
  rcases List.mem_append.mp hcmd with hop | hlast
  · rw [computed_of_operation hop, computed_of_operation hop, hreads _ (reads_operation hop)]
  · simp only [List.mem_cons, List.not_mem_nil, or_false] at hlast
    rcases hlast with hlui | hauipc
    · rw [computed, computed, hlui]
    · rw [computed, computed, hauipc]
      dsimp only
      rw [hpc]

theorem puts_immediate (hcmd : inst.getCmd ∈ immediateTypes) :
    Puts layout clobber insts virt inst.translate inst i s
      { s with regs := s.regs.set inst.getRd (computed inst (BitVec.ofNat 32 (4 * i)) s) } := by
  refine puts_of_emits s.pc (writes_immediate hcmd) fun tr a m hal hat hm hpc hvalues ↦ ?_
  have htemplate : Emits (env layout clobber) inst.translate tr m fun m' ↦ a.Holds layout m m'
      ((a.regs m).set inst.getRd (computed inst (tr.getOffset.setWidth 32) (a.guest m))) :=
    immediate_template hcmd hal.uses hm
  have hcomputed : computed inst (BitVec.ofNat 32 (4 * i)) (a.guest m) =
      computed inst (BitVec.ofNat 32 (4 * i)) s := @computed_congr inst hcmd s (a.guest m) hpc hvalues _
  have hsame : setPc m s.pc = m := by
    rw [← hpc]
    rfl
  rw [hat.offset, hcomputed] at htemplate
  rw [hsame]
  exact htemplate

end

end Translator

open Translator in
/-- The register allocator keeps the meaning of a trace, for whatever templates that are right on the
allocations it comes to: the pool is exact and what is in a host register is read later; the registers
a template reads have their values; and the code of a trace that the interpreter gets through leaves
all registers in their slots. -/
theorem allocation_preserves {layout : Layout} {clobber : Clobber} {translate : Inst → Tr Unit}
    {insts : List Inst} {virt : Bool} {n : ℕ} {s : ℕ → State} {m₀ : Machine State}
    (hsup : ∀ inst ∈ insts, inst.isTranslationSupported = true)
    (hplain : ∀ i inst, insts[i]? = some inst →
      PlainOn (prepared translate insts virt i inst) (translate inst))
    (hn : n ≤ insts.length)
    (hexec : ∀ i < n, ∀ inst, insts[i]? = some inst → ∃ flow,
      (inst.func_.exec inst (BitVec.ofNat 32 (4 * i))).run (s i) = .ok flow (s (i + 1)))
    (hputs : ∀ i < n, ∀ inst, insts[i]? = some inst →
      PutsOn layout clobber (prepared translate insts virt i inst) (translate inst) inst (s i) (s (i + 1)))
    (hm : Ready layout m₀) (hworld : m₀.world = s 0) :
    (∀ k ≤ insts.length, (before translate insts virt k).PoolExact ∧
      ∀ r, ((before translate insts virt k).reg_mapping_ r).isReg → ∃ j, NextUse (insts.drop k) r j) ∧
    (∀ k ≤ n, ∀ inst, insts[k]? = some inst →
      let tr := prepared translate insts virt k inst
      ∃ m, Through (env layout clobber) 0 tr.code_ m₀ m ∧
        ∀ r, inst.Reads r → tr.held layout clobber m r = .ok ((s k).regs.get r)) ∧
    (n = insts.length → (∀ r, (before translate insts virt n).reg_mapping_ r = getRegMemOp r) ∧
      ∃ m steps, Mirrors m (s n) ∧ m.world.regs = (s n).regs ∧ ∀ fuel, steps < fuel →
        let code := ((emitTrace translate insts).run (init insts virt)).2.code_
        (run (env layout clobber) .outOfFuel code fuel code).run m₀ = .ok () m) := by
  refine ⟨fun k hk ↦ ?_, fun k hk inst hi ↦ ?_, ?_⟩
  · obtain ⟨a, hb⟩ := between_before virt hk fun i _ ↦ hplain i
    refine ⟨hb.allocated.poolExact, fun r hr ↦ (liveIn_iff _ r).mp (hb.live r fun hs ↦ ?_).2⟩
    rw [hb.allocated.mapping, hs] at hr
    cases hr
  · have hlen := (List.getElem?_eq_some_iff.mp hi).1
    obtain ⟨a, m, hb, h⟩ := holding_prepared hsup (fun i _ ↦ hplain i) hexec hputs hm hworld hk hlen.le
    obtain ⟨a₁, hpre, -⟩ := preWork_relocates layout clobber hb.allocated inst
    obtain ⟨m₁, hthrough, -, hreads⟩ := h.reads hb hpre
    exact ⟨m₁, hthrough, hreads⟩
  · rintro rfl
    obtain ⟨a, m, hb, h⟩ := holding_prepared hsup (fun i _ ↦ hplain i) hexec hputs hm hworld le_rfl hn
    obtain ⟨hslots, hend⟩ := h.ends hb
    obtain ⟨steps, hsteps⟩ := h.through.returns
    refine ⟨fun r ↦ by rw [hb.allocated.mapping, hslots]; rfl, m, steps, h.mirrors, ?_, fun fuel hlt ↦ ?_⟩
    · rw [hend]
    · have hcode : ((emitTrace translate insts).run (init insts virt)).2.code_ =
          (before translate insts virt insts.length).code_ ++ [.inst .ret] := by
        rw [before, List.take_length]
        rfl
      rw [hcode]
      exact hsteps .outOfFuel fuel hlt

/-- `addi x1, x0, 5` and `sub x2, x2, x1`, with `x1` in a host register between them: on the allocation
that it meets the template of SUB is right, as it is not on every one. -/
theorem allocation_preserves_difference :
    let addi := genI ⟨.ADDI, by decide⟩ 1 0 5
    let sub := genR ⟨.SUB, by decide⟩ 2 2 1
    let insts := [addi, sub]
    ∃ m steps, m.world.regs.get 2 = 4 ∧ ∀ fuel, steps < fuel →
      let code := ((emitTrace Inst.translate insts).run (init insts false)).2.code_
      (run (env ⟨0, 0⟩ fun _ _ _ ↦ 0) .outOfFuel code fuel code).run (atEntry (Regs.fill0.set 2 9)) =
        .ok () m := by
  intro addi sub insts
  let nine := Regs.fill0.set 2 9
  let regs : ℕ → Regs := fun i ↦ if i = 0 then nine else if i = 1 then nine.set 1 5 else (nine.set 1 5).set 2 4
  let s : ℕ → State := fun i ↦ { (atEntry nine).world with regs := regs i }
  have hcases : ∀ i inst, insts[i]? = some inst → i = 0 ∧ inst = addi ∨ i = 1 ∧ inst = sub := by
    intro i inst hi
    rcases i with _ | _ | i
    · exact .inl ⟨rfl, (Option.some.inj hi).symm⟩
    · exact .inr ⟨rfl, (Option.some.inj hi).symm⟩
    · cases hi
  have hplain : ∀ i < 2, ∀ inst, insts[i]? = some inst → Plain insts false i inst.translate := by
    intro i _ inst hi
    rcases hcases i inst hi with ⟨rfl, rfl⟩ | ⟨rfl, rfl⟩
    · exact plain_of_supported rfl (by decide)
    · exact plain_of_supported rfl (by decide)
  have hsub : sub.getCmd ∈ regTypes := by decide
  have hvalue : combine sub.getCmd ((s 1).regs.get sub.getRs1) ((s 1).regs.get sub.getRs2) = 4 := by decide
  have hon := plainOn_prepared hplain
  have hexec : ∀ i < insts.length, ∀ inst, insts[i]? = some inst → ∃ flow,
      (inst.func_.exec inst (BitVec.ofNat 32 (4 * i))).run (s i) = .ok flow (s (i + 1)) := by
    intro i _ inst hi
    rcases hcases i inst hi with ⟨rfl, rfl⟩ | ⟨rfl, rfl⟩
    · exact ⟨.nextInst, rfl⟩
    · refine ⟨.nextInst, (exec_regType hsub _ _).trans ?_⟩
      rw [hvalue]
      rfl
  have hputs : ∀ i < insts.length, ∀ inst, insts[i]? = some inst → PutsOn ⟨0, 0⟩ (fun _ _ _ ↦ 0)
      (prepared Inst.translate insts false i inst) inst.translate inst (s i) (s (i + 1)) := by
    intro i hlt inst hi
    have hat : (prepared Inst.translate insts false i inst).At insts false i :=
      at_prepared hlt.le fun j hj ↦ hon j (hj.trans hlt)
    rcases hcases i inst hi with ⟨rfl, rfl⟩ | ⟨rfl, rfl⟩
    · exact (puts_immediate (by decide)).on hat
    · refine putsOn_of_value (Inst.writes_iff.mpr ⟨rfl, rfl⟩) fun a m huses hm _ hreads ↦ ?_
      have htemplate := regType_template (fun _ _ _ ↦ 0) hsub huses hm
      rw [if_neg (by decide), hreads _ (Inst.reads_iff.mpr (.inl ⟨rfl, rfl⟩)),
        hreads _ (Inst.reads_iff.mpr (.inr ⟨rfl, rfl⟩)), hvalue] at htemplate
      exact htemplate
  have hlength : ∀ i inst, insts[i]? = some inst → i < insts.length :=
    fun i inst hi ↦ (List.getElem?_eq_some_iff.mp hi).1
  obtain ⟨-, -, hend⟩ := allocation_preserves (by decide) (fun i inst hi ↦ hon i (hlength i inst hi) inst hi)
    le_rfl hexec hputs (ready_atEntry nine) rfl
  obtain ⟨-, m, steps, -, hregs, hrun⟩ := hend rfl
  exact ⟨m, steps, by rw [hregs]; rfl, hrun⟩

end RiscvSim
