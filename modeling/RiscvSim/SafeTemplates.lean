import RiscvSim.RegTemplates
import RiscvSim.ShiftTemplates
import RiscvSim.ProductTemplates
import RiscvSim.SetTemplates
import RiscvSim.BareTemplates
import RiscvSim.ControlTransfer
import RiscvSim.TraceCache

namespace RiscvSim

open Isa Ir X86 Results Native State ExecInst Translator TranslateInst

namespace Translator

/-- A shift by `ecx` keeps its meaning, for a first operand `v` and a count `w`. -/
def KeepsShift (tr : Translator) (inst : Inst) (v w : U32) : Prop :=
  if tr.getReg inst.getRd = .reg .rcx 32 then w.toNat % 32 = 0 ∨ X86.Settled (shiftOf inst.getCmd) v
  else inst.getRs2 = inst.getRd → v.toNat % 32 = w.toNat % 32 ∨
    X86.Settled (shiftOf inst.getCmd) (shift (shiftOf inst.getCmd) v (min (v.toNat % 32) (w.toNat % 32)))

theorem keepsShift_iff {tr : Translator} {a : Allocation} {inst : Inst} {v w : U32} (huses : tr.Uses a)
    (hrd : inst.getRd ≠ 0) : tr.KeepsShift inst v w ↔ ShiftKept a inst v w := by
  have hop : tr.getReg inst.getRd = .reg .rcx 32 ↔ a.loc inst.getRd = .host .rcx := by
    rw [huses.of_ne hrd, show Operand.reg .rcx 32 = (Loc.host .rcx).op from rfl, Loc.op_inj]
  rw [KeepsShift, ShiftKept]
  by_cases hl : a.loc inst.getRd = .host .rcx
  · rw [if_pos hl, if_pos (hop.mpr hl)]
  · rw [if_neg hl, if_neg (hop.not.mpr hl)]

/-- The template of an instruction, on the allocation of `tr`, does in `s` what the interpreter does. -/
structure Safe (tr : Translator) (inst : Inst) (s : State) : Prop where
  shamt : inst.getCmd ≠ .SRAI
  reg : inst.getCmd ∈ regTypes →
    ¬ Lost tr inst ∨ Absorbs inst.getCmd (s.regs.get inst.getRs1) (s.regs.get inst.getRs2)
  shift : inst.getCmd ∈ shiftTypes → inst.getRd = 0 ∨ inst.getRs2 = 0 ∨
    tr.KeepsShift inst (s.regs.get inst.getRs1) (s.regs.get inst.getRs2)
  product : inst.getCmd ∈ productTypes → inst.getRd = 0 ∨
    inst.getRs2 ≠ 0 ∧ (inst.getCmd = .MUL ∨ SignFree (s.regs.get inst.getRs1) (s.regs.get inst.getRs2)) ∨
    inst.getRs2 = 0 ∧ inst.getCmd = .MUL ∧ s.regs.get inst.getRs1 = 0
  compare : inst.getCmd ∈ setTypes → inst.getCmd ∉ immTypes ∨ inst.getRs1 ≠ 0 ∨ inst.getRd = 0
  access : inst.getCmd ∈ memTypes →
    ((s.regs.get inst.getRs1).toNat : ℤ) + inst.getImm.toInt =
        ((s.regs.get inst.getRs1 + inst.getImm).toNat : ℤ) ∧
      (s.regs.get inst.getRs1 + inst.getImm).toNat + (accessOf inst.getCmd).bytes < s.mmu.pmem_size_

theorem Safe.alike {tr : Translator} {inst : Inst} {s t : State} (h : tr.Safe inst t)
    (hst : SameMachine s t) : tr.Safe inst s := by
  obtain ⟨shamt, reg, shift, product, compare, access⟩ := h
  rw [← hst.regs] at reg shift product access
  rw [← hst.mmu] at access
  exact ⟨shamt, reg, shift, product, compare, access⟩

end Translator

theorem supported_cases {inst : Inst} (hsup : inst.isTranslationSupported = true)
    (hterm : inst.isTerminator = false) : inst.getCmd = .SRAI ∨ inst.getCmd ∈ immediateTypes ∨
      inst.getCmd ∈ regTypes ∨ inst.getCmd ∈ shiftTypes ∨ inst.getCmd ∈ productTypes ∨
      inst.getCmd ∈ setTypes ∨ inst.getCmd ∈ memTypes := by
  obtain ⟨imm, rs1, rs2, rd, c, hc⟩ := inst
  change c = .SRAI ∨ c ∈ immediateTypes ∨ c ∈ regTypes ∨ c ∈ shiftTypes ∨ c ∈ productTypes ∨
    c ∈ setTypes ∨ c ∈ memTypes
  cases c with
  | JAL | JALR | BEQ | BNE | BLT | BGE | BLTU | BGEU => cases hterm
  | UNDEFINED => exact absurd rfl hc
  | _ => first | decide | cases hsup

theorem transfer_of_terminator {inst : Inst} (hsup : inst.isTranslationSupported = true)
    (hterm : inst.isTerminator = true) : inst.getCmd ∈ transferTypes := by
  obtain ⟨imm, rs1, rs2, rd, c, hc⟩ := inst
  change c ∈ transferTypes
  cases c with
  | JAL | JALR | BEQ | BNE | BLT | BGE | BLTU | BGEU => decide
  | UNDEFINED => exact absurd rfl hc
  | _ => first | cases hsup; done | cases hterm

theorem fields_of_format {inst : Inst} (h : inst.getCmdFormat = .R) :
    inst.Reads inst.getRs1 ∧ inst.Reads inst.getRs2 ∧ inst.Writes inst.getRd := by
  refine ⟨.inl ⟨?_, rfl⟩, .inr ⟨?_, rfl⟩, ?_, rfl⟩ <;> rw [h] <;> decide

theorem format_of_regType {inst : Inst} (hcmd : inst.getCmd ∈ regTypes ++ shiftTypes ++ productTypes) :
    inst.getCmdFormat = .R := by
  obtain ⟨imm, rs1, rs2, rd, c, hc⟩ := inst
  change c ∈ regTypes ++ shiftTypes ++ productTypes at hcmd
  cases c <;> first | rfl | exact absurd hcmd (by decide)

theorem fields_of_setType {inst : Inst} (hcmd : inst.getCmd ∈ setTypes) : inst.Reads inst.getRs1 ∧
    inst.Writes inst.getRd ∧ (inst.getCmd ∉ immTypes → inst.Reads inst.getRs2) := by
  have hfirst : inst.isRs1 = true ∧ inst.isRd = true ∧ (inst.getCmd ∉ immTypes → inst.isRs2 = true) := by
    obtain ⟨imm, rs1, rs2, rd, c, hc⟩ := inst
    change c ∈ setTypes at hcmd
    simp only [setTypes, List.mem_cons, List.not_mem_nil, or_false] at hcmd
    rcases hcmd with rfl | rfl | rfl | rfl
    · exact ⟨rfl, rfl, fun _ ↦ rfl⟩
    · exact ⟨rfl, rfl, fun _ ↦ rfl⟩
    · exact ⟨rfl, rfl, fun h ↦ absurd (List.mem_cons_self ..) h⟩
    · exact ⟨rfl, rfl, fun h ↦ absurd (List.mem_cons_of_mem _ (List.mem_cons_self ..)) h⟩
  exact ⟨Inst.reads_iff.mpr (.inl ⟨hfirst.1, rfl⟩), Inst.writes_iff.mpr ⟨hfirst.2.1, rfl⟩,
    fun h ↦ Inst.reads_iff.mpr (.inr ⟨hfirst.2.2 h, rfl⟩)⟩

/-- A load reads its base register and writes `rd`; a store reads two registers. -/
inductive MemForm (inst : Inst) (T : AccessAs) : Prop
  | load (result : Operand → Tr Unit) (access : Operand → Operand → Tr Unit)
      (translate : inst.translate = translateLoad inst T result access)
      (emits : ∀ dst, access dst (TranslateInst.guest inst (8 * T.bytes)) =
        Translator.emit (.bin (moveOf T) dst (TranslateInst.guest inst (8 * T.bytes))))
      (exec : ∀ offset, inst.func_.exec inst offset = ExecInst.load inst T.bytes (extendAs T))
      (writes : inst.Writes inst.getRd)
  | store (translate : inst.translate = translateStore inst T)
      (exec : ∀ offset, inst.func_.exec inst offset = ExecInst.store inst T.bytes)
      (reads : inst.Reads inst.getRs2) (writes : ∀ r, ¬ inst.Writes r)

theorem memForm {inst : Inst} (hcmd : inst.getCmd ∈ memTypes) :
    inst.Reads inst.getRs1 ∧ MemForm inst (accessOf inst.getCmd) := by
  obtain ⟨imm, rs1, rs2, rd, c, hc⟩ := inst
  change c ∈ memTypes at hcmd
  simp only [memTypes, List.mem_cons, List.not_mem_nil, or_false] at hcmd
  rcases hcmd with rfl | rfl | rfl | rfl | rfl | rfl | rfl | rfl
  · exact ⟨Inst.reads_iff.mpr (.inl ⟨rfl, rfl⟩), .load _ _ rfl (fun _ ↦ rfl) (fun _ ↦ rfl)
      (Inst.writes_iff.mpr ⟨rfl, rfl⟩)⟩
  · exact ⟨Inst.reads_iff.mpr (.inl ⟨rfl, rfl⟩), .load _ _ rfl (fun _ ↦ rfl) (fun _ ↦ rfl)
      (Inst.writes_iff.mpr ⟨rfl, rfl⟩)⟩
  · exact ⟨Inst.reads_iff.mpr (.inl ⟨rfl, rfl⟩), .load _ _ rfl (fun dst ↦ translateMove_of_mem dst _)
      (fun _ ↦ rfl) (Inst.writes_iff.mpr ⟨rfl, rfl⟩)⟩
  · exact ⟨Inst.reads_iff.mpr (.inl ⟨rfl, rfl⟩), .load _ _ rfl (fun _ ↦ rfl) (fun _ ↦ rfl)
      (Inst.writes_iff.mpr ⟨rfl, rfl⟩)⟩
  · exact ⟨Inst.reads_iff.mpr (.inl ⟨rfl, rfl⟩), .load _ _ rfl (fun _ ↦ rfl) (fun _ ↦ rfl)
      (Inst.writes_iff.mpr ⟨rfl, rfl⟩)⟩
  · exact ⟨Inst.reads_iff.mpr (.inl ⟨rfl, rfl⟩), .store rfl (fun _ ↦ rfl)
      (Inst.reads_iff.mpr (.inr ⟨rfl, rfl⟩)) fun r h ↦ Bool.false_ne_true (Inst.writes_iff.mp h).1⟩
  · exact ⟨Inst.reads_iff.mpr (.inl ⟨rfl, rfl⟩), .store rfl (fun _ ↦ rfl)
      (Inst.reads_iff.mpr (.inr ⟨rfl, rfl⟩)) fun r h ↦ Bool.false_ne_true (Inst.writes_iff.mp h).1⟩
  · exact ⟨Inst.reads_iff.mpr (.inl ⟨rfl, rfl⟩), .store rfl (fun _ ↦ rfl)
      (Inst.reads_iff.mpr (.inr ⟨rfl, rfl⟩)) fun r h ↦ Bool.false_ne_true (Inst.writes_iff.mp h).1⟩

theorem shifted_eq {a : Allocation} {inst : Inst} {v w : U32} (hz : inst.getRs2 = 0 → w = 0)
    (h : inst.getRs2 = 0 ∨ ShiftKept a inst v w) :
    (if inst.getRs2 = 0 ∨ a.loc inst.getRd = .host .rcx then v
      else shifted inst.getCmd v (if inst.getRs2 = inst.getRd then v else w)) =
      shifted inst.getCmd v w := by
  by_cases hrs2 : inst.getRs2 = 0
  · rw [if_pos (.inl hrs2), hz hrs2]
    exact (shift_zero _ v).symm
  · have hkept := h.resolve_left hrs2
    rw [ShiftKept] at hkept
    simp only [hrs2, false_or]
    split at hkept
    · next hl =>
      rw [if_pos hl]
      exact ((shift_eq_self_iff _ v).mpr hkept).symm
    · next hl =>
      rw [if_neg hl]
      split
      · next hrd => exact (shift_eq_shift_iff _ v _ _).mpr (hkept hrd)
      · rfl

theorem machineProduct_eq {c : Cmd} {v w : U32} (h : c = .MUL ∨ SignFree v w) :
    machineProduct c v w = product c v w := by
  rw [machineProduct, product]
  split
  · rfl
  · next hmul => exact (high_eq_iff v w).mpr (h.resolve_left hmul)

namespace Translator

section

variable {layout : Layout} {clobber : Clobber} {tr : Translator} {inst : Inst} {i : ℕ} {s : State}

theorem Put.of_guest {a : Allocation} {m m' : Machine State} {mmu : MMU} (hal : tr.Allocated a)
    (hm : Ready layout m) (hmirrors : Mirrors m s) (hm' : Ready layout m')
    (hwrites : ∀ r, ¬ inst.Writes r) (h : a.guest m' = { a.guest m with mmu := mmu }) :
    Put layout clobber tr inst { s with mmu := mmu } m m' := by
  have hworld : m'.world = { m.world with mmu := mmu, regs := m'.world.regs } :=
    congrArg (fun t : State ↦ { t with regs := m'.world.regs }) h
  have hregs : a.regs m' = a.regs m := congrArg State.regs h
  refine ⟨hm', ?_, by rw [hworld], fun r _ hw ↦ absurd hw (hwrites r), fun r _ ↦ ?_⟩
  · rw [Mirrors]
    conv_lhs => rw [hworld, hmirrors]
    conv_rhs => rw [hworld]
  · rw [hal.held_eq clobber hm', hal.held_eq clobber hm]
    exact congrArg (fun R : Regs ↦ Except.ok (R.get r)) hregs

theorem rightOn_of_value {v : U32} (hwrites : inst.Writes inst.getRd)
    (hexec : (inst.func_.exec inst (BitVec.ofNat 32 (4 * i))).run s =
      .ok .nextInst { s with regs := s.regs.set inst.getRd v })
    (h : ∀ a m, tr.Uses a → Ready layout m → m.world.mmu = s.mmu →
      (∀ r, inst.Reads r → (a.regs m).get r = s.regs.get r) →
      Emits (env layout clobber) inst.translate tr m fun m' ↦
        a.Holds layout m m' ((a.regs m).set inst.getRd v)) : RightOn layout clobber tr inst i s where
  puts flow s' hx := by
    rw [hexec] at hx
    cases hx
    exact putsOn_of_value hwrites h
  balks e s' hx := by
    rw [hexec] at hx
    cases hx

theorem rightOn_immediate (hcmd : inst.getCmd ∈ immediateTypes) (hd : Decodes inst) {insts : List Inst}
    {virt : Bool} (hat : tr.At insts virt i) : RightOn layout clobber tr inst i s where
  puts flow s' hx := by
    rw [exec_immediate hcmd hd] at hx
    cases hx
    exact (puts_immediate hcmd).on hat
  balks e s' hx := by
    rw [exec_immediate hcmd hd] at hx
    cases hx

variable (hsafe : tr.Safe inst s)

include hsafe

theorem rightOn_regType (hcmd : inst.getCmd ∈ regTypes) : RightOn layout clobber tr inst i s := by
  obtain ⟨h1, h2, hwrites⟩ := fields_of_format (format_of_regType
    (List.mem_append_left _ (List.mem_append_left _ hcmd)))
  refine rightOn_of_value hwrites (exec_regType hcmd _ s) fun a m huses hm _ hreads ↦ ?_
  have htemplate := regType_template clobber hcmd huses hm
  rw [hreads _ h1, hreads _ h2] at htemplate
  split at htemplate
  · next hlost =>
    have hsame := (combine_eq_left hcmd).mpr ((hsafe.reg hcmd).resolve_left (not_not.mpr hlost))
    rw [hsame]
    exact htemplate
  · exact htemplate

theorem rightOn_shiftType (hcmd : inst.getCmd ∈ shiftTypes) : RightOn layout clobber tr inst i s := by
  obtain ⟨h1, h2, hwrites⟩ := fields_of_format (format_of_regType
    (List.mem_append_left _ (List.mem_append_right _ hcmd)))
  refine rightOn_of_value hwrites (exec_shiftType hcmd _ s) fun a m huses hm _ hreads ↦ ?_
  have htemplate := @shiftType_template _ clobber _ _ _ _ hcmd huses hm
  rw [hreads _ h1, hreads _ h2] at htemplate
  by_cases hrd : inst.getRd = 0
  · rw [hrd, Regs.set_zero] at htemplate ⊢
    exact htemplate
  · have hkept := ((hsafe.shift hcmd).resolve_left hrd).imp_right (keepsShift_iff huses hrd).mp
    rw [shifted_eq (fun hz ↦ by rw [hz]; exact s.regs.get_zero) hkept] at htemplate
    exact htemplate

theorem rightOn_productType (hcmd : inst.getCmd ∈ productTypes) : RightOn layout clobber tr inst i s := by
  obtain ⟨h1, h2, hwrites⟩ := fields_of_format (format_of_regType (List.mem_append_right _ hcmd))
  refine rightOn_of_value hwrites (exec_productType hcmd _ s) fun a m huses hm _ hreads ↦ ?_
  have htemplate := @productType_template _ clobber _ _ _ _ hcmd huses hm
  rw [hreads _ h1, hreads _ h2] at htemplate
  rcases hsafe.product hcmd with hrd | ⟨hrs2, hfree⟩ | ⟨hrs2, hmul, hzero⟩
  · rw [hrd, Regs.set_zero] at htemplate ⊢
    exact htemplate
  · rw [if_neg hrs2, machineProduct_eq hfree] at htemplate
    exact htemplate
  · rw [if_pos hrs2, if_pos hmul] at htemplate
    have hproduct : product inst.getCmd (s.regs.get inst.getRs1) (s.regs.get inst.getRs2) =
        s.regs.get inst.getRs1 := by
      rw [product, if_pos hmul, hzero]
      exact BitVec.zero_mul
    rw [hproduct]
    exact htemplate

theorem rightOn_setType (hcmd : inst.getCmd ∈ setTypes) : RightOn layout clobber tr inst i s := by
  obtain ⟨h1, hwrites, h2⟩ := fields_of_setType hcmd
  refine rightOn_of_value hwrites (exec_setType hcmd _ s) fun a m huses hm _ hreads ↦ ?_
  have htemplate := setType_template clobber hcmd huses hm (hsafe.compare hcmd)
  have hsecond : comparand inst (a.regs m) = comparand inst s.regs := by
    rw [comparand, comparand]
    split
    · rfl
    · next himm => exact hreads _ (h2 himm)
  rw [hreads _ h1, hsecond] at htemplate
  exact htemplate

theorem rightOn_memType (hcmd : inst.getCmd ∈ memTypes) (hv : tr.isVirtualAddressing = false)
    (hbare : s.mmu.isVirtualAddressing = false) (hside : layout.Beside s.mmu.pmem_size_) :
    RightOn layout clobber tr inst i s := by
  obtain ⟨hsum, hlt⟩ := hsafe.access hcmd
  have hwide := (wide_sum_iff _ _).mpr hsum
  obtain ⟨h1, hform⟩ := memForm hcmd
  cases hform with
  | load result access htranslate hemits hexec hwrites =>
    have hx := load_run inst hbare (extendAs (accessOf inst.getCmd)) hlt
    rw [← hexec (BitVec.ofNat 32 (4 * i))] at hx
    refine rightOn_of_value hwrites hx fun a m huses hm hmmu hreads ↦ ?_
    rw [← hmmu] at hside hlt
    rw [← hreads _ h1] at hwide hlt
    have hloads := Emits.loads hm huses hwide hv hside hlt clobber result hemits
    rw [← htranslate, hmmu, hreads _ h1] at hloads
    exact hloads
  | store htranslate hexec h2 hwrites =>
    have hx := store_run inst hbare hlt
    rw [← hexec (BitVec.ofNat 32 (4 * i))] at hx
    constructor
    · intro flow s' hx'
      rw [hx] at hx'
      cases hx'
      intro a m hal hm hmirrors hheld
      have hreads := values_of_held hal hm hheld
      have hmmu := hmirrors.mmu
      rw [← hmmu] at hside hlt
      rw [← hreads _ h1] at hwide hlt
      have hstores := Emits.stores hm hal.uses hwide hv hside hlt clobber
      rw [← htranslate] at hstores
      obtain ⟨m', hrun, hready, hm'⟩ := hstores.run
      rw [hmmu, hreads _ h1, hreads _ h2] at hm'
      exact ⟨m', .of_block hrun, .of_guest hal hm hmirrors hready hwrites hm'⟩
    · intro e s' hx'
      rw [hx] at hx'
      cases hx'

/-- The template of a safe instruction that does not end a trace does what the interpreter does. -/
theorem rightOn_safe {insts : List Inst} (hsup : inst.isTranslationSupported = true)
    (hterm : inst.isTerminator = false) (hd : Decodes inst) (hat : tr.At insts false i)
    (hbare : s.mmu.isVirtualAddressing = false) (hside : layout.Beside s.mmu.pmem_size_) :
    RightOn layout clobber tr inst i s := by
  rcases supported_cases hsup hterm with h | h | h | h | h | h | h
  · exact absurd h hsafe.shamt
  · exact rightOn_immediate h hd hat
  · exact rightOn_regType hsafe h
  · exact rightOn_shiftType hsafe h
  · exact rightOn_productType hsafe h
  · exact rightOn_setType hsafe h
  · exact rightOn_memType hsafe h hat.virt hbare hside

theorem exec_safe (hsup : inst.isTranslationSupported = true) (hterm : inst.isTerminator = false)
    (hd : Decodes inst) (hbare : s.mmu.isVirtualAddressing = false) (offset : U32) :
    ∃ s', (inst.func_.exec inst offset).run s = .ok .nextInst s' := by
  rcases supported_cases hsup hterm with h | h | h | h | h | h | h
  · exact absurd h hsafe.shamt
  · exact ⟨_, exec_immediate h hd offset s⟩
  · exact ⟨_, exec_regType h offset s⟩
  · exact ⟨_, exec_shiftType h offset s⟩
  · exact ⟨_, exec_productType h offset s⟩
  · exact ⟨_, exec_setType h offset s⟩
  · obtain ⟨-, hlt⟩ := hsafe.access h
    obtain ⟨-, hform⟩ := memForm h
    cases hform with
    | load result access htranslate hemits hexec hwrites =>
      rw [hexec]
      exact ⟨_, load_run inst hbare _ hlt⟩
    | store htranslate hexec h2 hwrites =>
      rw [hexec]
      exact ⟨_, store_run inst hbare hlt⟩

end

end Translator

end RiscvSim
