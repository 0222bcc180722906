import RiscvSim.BranchTemplates
import RiscvSim.Lifetime
import RiscvSim.Library.X86Loops

namespace RiscvSim

open Isa Ir X86 Results Native State ExecInst Translator TranslateInst

def transferTypes : List Cmd := .JAL :: .JALR :: branchTypes

/-- What the interpreter makes of a trace: the chain from index 0, and the count. -/
def Execution (insts : List Inst) (s s' : State) : Prop :=
  ∃ visited t, (execFrom 0 insts).run s = .ok visited t ∧
    s' = { t with executed_insts := t.executed_insts + BitVec.ofNat 64 insts.length }

/-- The trace is a loop, and the branch that ended it was taken; a branch writes no register. -/
def Again (insts : List Inst) (s : State) : Prop :=
  Loops insts ∧ ∃ inst ∈ insts.getLast?, inst.takenIn s = true

namespace Arrives

variable {insts : List Inst} {s t t' : State} {k : ℕ}

theorem insts_eq (h : Arrives insts s k t) : t.executed_insts = s.executed_insts := by
  induction h with
  | first => rfl
  | next _ _ hx ih => exact ((ExecFunc.exec_keeps_insts _ _ _).of_ok hx).trans ih

theorem execFrom_iff (h : Arrives insts s k t) (s' : State) :
    (∃ visited, (execFrom 0 insts).run s = .ok visited s') ↔
      ∃ visited, (execFrom k (insts.drop k)).run t = .ok visited s' := by
  induction h with
  | first => rfl
  | @next k inst t t' h hi hx ih =>
    refine ih.trans ?_
    obtain ⟨hlt, hget⟩ := List.getElem?_eq_some_iff.mp hi
    rw [List.drop_eq_getElem_cons hlt, hget, execFrom, run_bind_of_ok hx]
    constructor
    · rintro ⟨visited, hr⟩
      obtain ⟨v, s₁, hr', h₁⟩ := run_bind_eq_ok.mp hr
      cases h₁
      exact ⟨v, hr'⟩
    · rintro ⟨visited, hr⟩
      exact ⟨k :: visited, run_bind_eq_ok.mpr ⟨visited, s', hr, rfl⟩⟩

theorem states (h : Arrives insts s k t) : ∃ u : ℕ → State, u 0 = s ∧ u k = t ∧
    (∀ i ≤ k, Arrives insts s i (u i)) ∧ ∀ i < k, ∀ inst, insts[i]? = some inst → ∃ flow,
      (inst.func_.exec inst (BitVec.ofNat 32 (4 * i))).run (u i) = .ok flow (u (i + 1)) := by
  induction h with
  | first => exact ⟨fun _ ↦ s, rfl, rfl, fun i hi ↦ by rw [Nat.le_zero.mp hi]; exact .first, nofun⟩
  | @next k inst t t' h hi hx ih =>
    obtain ⟨u, hzero, hlast, hreach, hstep⟩ := ih
    have hold : ∀ i ≤ k, Function.update u (k + 1) t' i = u i := fun i hle ↦
      Function.update_of_ne (by omega) _ _
    refine ⟨Function.update u (k + 1) t', ?_, Function.update_self .., fun i hle ↦ ?_, fun i hlt ↦ ?_⟩
    · rw [hold 0 (Nat.zero_le k), hzero]
    · rcases Nat.lt_or_eq_of_le hle with hlt | rfl
      · rw [hold i (Nat.le_of_lt_succ hlt)]
        exact hreach i (Nat.le_of_lt_succ hlt)
      · rw [Function.update_self]
        exact h.next hi hx
    · intro inst' hi'
      rw [hold i (Nat.le_of_lt_succ hlt)]
      rcases Nat.lt_or_eq_of_le (Nat.le_of_lt_succ hlt) with hlt | rfl
      · rw [hold (i + 1) hlt]
        exact hstep i hlt inst' hi'
      · rw [Function.update_self, hlast]
        rw [hi] at hi'
        cases hi'
        exact ⟨.nextInst, hx⟩

end Arrives

theorem arrives_or_throws {insts : List Inst} (s : State) {k : ℕ} (hk : k ≤ insts.length)
    (hbody : ∀ i < k, ∀ inst, insts[i]? = some inst → inst.isTerminator = false) :
    (∃ t, Arrives insts s k t) ∨ ∃ i < k, ∃ t inst e t', Arrives insts s i t ∧ insts[i]? = some inst ∧
      (inst.func_.exec inst (BitVec.ofNat 32 (4 * i))).run t = .error e t' := by
  induction k with
  | zero => exact .inl ⟨s, .first⟩
  | succ k ih =>
    rcases ih (Nat.le_of_succ_le hk) fun i hlt ↦ hbody i (Nat.lt_succ_of_lt hlt) with ⟨t, ht⟩ | ⟨i, hi, hthrow⟩
    · have hi := List.getElem?_eq_getElem hk
      cases hx : (insts[k].func_.exec insts[k] (BitVec.ofNat 32 (4 * k))).run t with
      | ok flow t' =>
        have hflow := ExecFunc.exec_flow hx
        rw [← isTerminator_eq, hbody k (Nat.lt_succ_self k) _ hi] at hflow
        change flow = .nextInst at hflow
        subst hflow
        exact .inl ⟨t', ht.next hi hx⟩
      | error e t' => exact .inr ⟨k, Nat.lt_succ_self k, t, _, e, t', ht, hi, hx⟩
    · exact .inr ⟨i, Nat.lt_succ_of_lt hi, hthrow⟩

namespace Translator

section

variable (layout : Layout) (clobber : Clobber) (insts : List Inst) (virt : Bool)

/-- On this allocation the code of an instruction takes the step of the interpreter, and returns from no
call where the interpreter throws. -/
structure RightOn (tr : Translator) (inst : Inst) (i : ℕ) (s : State) : Prop where
  puts : ∀ flow s', (inst.func_.exec inst (BitVec.ofNat 32 (4 * i))).run s = .ok flow s' →
    PutsOn layout clobber tr inst.translate inst s s'
  balks : ∀ e s', (inst.func_.exec inst (BitVec.ofNat 32 (4 * i))).run s = .error e s' →
    ∀ a m, tr.Allocated a → Ready layout m → Mirrors m s →
      (∀ r, inst.Reads r → tr.held layout clobber m r = .ok (s.regs.get r)) →
      Stuck (env layout clobber) tr.labels (emitted inst.translate tr) m

/-- On the allocations that the translator comes to, the code of the first `n` instructions is right,
wherever the interpreter comes from `s`. -/
def BodyRightOn (n : ℕ) (s : State) : Prop :=
  ∀ i < n, ∀ inst t, insts[i]? = some inst → Arrives insts s i t →
    RightOn layout clobber (prepared Inst.translate insts virt i inst) inst i t

/-- The same wherever executions that end in a jump back come from `s`. -/
def AlwaysRightOn (n : ℕ) (s : State) : Prop :=
  ∀ t, Relation.ReflTransGen (fun s s' ↦ Execution insts s s' ∧ Again insts s') s t →
    BodyRightOn layout clobber insts virt n t

end

section

variable {layout : Layout} {clobber : Clobber} {insts : List Inst} {virt : Bool} {n : ℕ}
  {s t : State} {m₀ : Machine State} (hsup : ∀ inst ∈ insts, inst.isTranslationSupported = true)
  (hplain : ∀ i < n, ∀ inst, insts[i]? = some inst →
    PlainOn (prepared Inst.translate insts virt i inst) inst.translate)
  (hright : BodyRightOn layout clobber insts virt n s) (hm : Ready layout m₀) (hworld : m₀.world = s)

include hsup hplain hright hm hworld

theorem holding_arrives {k : ℕ} (hk : k ≤ n) (hlen : k ≤ insts.length) (h : Arrives insts s k t) : ∃ a m,
    Between insts virt k (before Inst.translate insts virt k) a ∧
      Holding layout clobber m₀ (s.executed_insts + BitVec.ofNat 64 insts.length)
        (before Inst.translate insts virt k) a t m := by
  obtain ⟨u, hzero, hlast, harrive, hstep⟩ := h.states
  have hputs : ∀ i < k, ∀ inst, insts[i]? = some inst → PutsOn layout clobber
      (prepared Inst.translate insts virt i inst) inst.translate inst (u i) (u (i + 1)) := by
    intro i hlt inst hi
    obtain ⟨flow, hx⟩ := hstep i hlt inst hi
    exact (hright i (hlt.trans_le hk) inst (u i) hi (harrive i hlt.le)).puts flow _ hx
  rw [← hworld, ← hlast]
  exact holding_prepared hsup (fun i hlt ↦ hplain i (hlt.trans_le hk)) hstep hputs hm
    (hworld.trans hzero.symm) le_rfl hlen

theorem stuck_throws {i : ℕ} (hi : i < n) {inst : Inst} (hinst : insts[i]? = some inst)
    (h : Arrives insts s i t) {e : Stop} {t' : State}
    (hx : (inst.func_.exec inst (BitVec.ofNat 32 (4 * i))).run t = .error e t') :
    Stuck (env layout clobber) 0 (before Inst.translate insts virt (i + 1)).code_ m₀ := by
  have hlen := (List.getElem?_eq_some_iff.mp hinst).1
  obtain ⟨a, m, hb, hh⟩ := holding_arrives hsup hplain hright hm hworld hi.le hlen.le h
  obtain ⟨a₁, hpre, -⟩ := preWork_relocates layout clobber hb.allocated inst
  obtain ⟨m₁, hthrough, hmoved, hreads⟩ := hh.reads hb hpre
  have hmirrors := (hh.mirrors.keeps hmoved.toKeeps).1
  have hbalks := (hright i hi inst t hinst h).balks e t' hx a₁ m₁ hpre.allocated hmoved.ready
    hmirrors hreads
  obtain ⟨rest, hrest⟩ := (prefix_before hinst fun j hle ↦ hplain j (hle.trans_lt hi)).2
  rw [← hrest]
  exact (hthrough.stuck hbalks (Nat.zero_le _) (hpre.labels hb.labels)).append rest

end

/-- The code of a branch to the start of the trace, with the work around it: at the jump the operands
are compared and all registers are in their slots. -/
structure Backs (layout : Layout) (clobber : Clobber) (inst : Inst) (tr : Translator) (a : Allocation)
    (tr₁ : Translator) (a₁ : Allocation) (c : NativeCode) (sunk : Translator) (a₂ : Allocation)
    (tr' : Translator) (a' : Allocation) : Prop where
  pre : Relocates layout clobber (fun r ↦ inst.Reads r ∨ ¬ inst.Writes r) tr a tr₁ a₁
  compared : ∀ pre, (Translator.compared inst).run { tr₁ with code_ := pre } =
    ((), { tr₁ with code_ := pre ++ c })
  mild : Mild c
  sinks : Relocates layout clobber (fun _ ↦ True) { tr₁ with code_ := tr₁.code_ ++ c } a₁ sunk a₂
  slots : ∀ r, r ≠ 0 → a₂.loc r = .slot r
  post : Relocates layout clobber (fun _ ↦ True) { sunk with
    code_ := sunk.code_ ++ (.inst (.jcc (jumpOn inst.getCmd) 0) :: addPC (tr.getOffset + 4)) } a₂ tr' a'
  slots' : ∀ r, r ≠ 0 → a'.loc r = .slot r

section

variable {layout : Layout} {clobber : Clobber} {insts : List Inst} {virt : Bool} {n : ℕ} {inst : Inst}
  {tr : Translator} {a : Allocation}

variable (layout clobber) in
theorem exists_backs (hb : Between insts virt n tr a) (hcmd : inst.getCmd ∈ branchTypes)
    (hz : takenOffset inst (BitVec.ofNat 64 (n * 4)) = 0) :
    let tr' := ((postWork inst).run (inst.translate.run ((preWork inst).run tr).2).2).2
    ∃ tr₁ a₁ c sunk a₂ a', Backs layout clobber inst tr a tr₁ a₁ c sunk a₂ tr' a' := by
  intro tr'
  obtain ⟨a₁, hpre, -⟩ := preWork_relocates layout clobber hb.allocated inst
  have htr' : tr' = ((postWork inst).run (inst.translate.run ((preWork inst).run tr).2).2).2 := rfl
  have hat := hb.next.relocates layout clobber hpre
  generalize ((preWork inst).run tr).2 = tr₁ at hpre hat htr'
  obtain ⟨c, hc, hmild⟩ := mild_compared hpre.allocated.uses inst
  obtain ⟨a₂, hsunk, hslots⟩ := deallocateAllRegs_relocates layout clobber
    (hpre.allocated.withCode (tr₁.code_ ++ c))
  generalize hs : (deallocateAllRegs.run { tr₁ with code_ := tr₁.code_ ++ c }).2 = sunk at hsunk
  have hstart : sunk.func_start_ = 0 := by
    rw [hsunk.same]
    exact hat.func_start
  have hback : ((translateCondBranch inst (jumpOn inst.getCmd)).run tr₁).2 = { sunk with
      code_ := sunk.code_ ++ (.inst (.jcc (jumpOn inst.getCmd) 0) :: addPC (tr₁.getOffset + 4)) } := by
    rw [condBranch_back _ hc (by rw [hat.getOffset]; exact hz) hs, hstart]
  rw [translate_branch hcmd, hback, hat.getOffset, ← hb.next.getOffset] at htr'
  obtain ⟨a', hpost, hloc, -⟩ := postWork_relocates layout clobber (hsunk.allocated.withCode
    (sunk.code_ ++ (.inst (.jcc (jumpOn inst.getCmd) 0) :: addPC (tr.getOffset + 4)))) inst
  rw [← htr'] at hpost
  refine ⟨tr₁, a₁, c, sunk, a₂, a', hpre, hc, hmild, hsunk, hslots, hpost, fun r hr ↦ ?_⟩
  exact (hloc r).elim (fun he ↦ he.trans (hslots r hr)) id

end

namespace Backs

variable {layout : Layout} {clobber : Clobber} {insts : List Inst} {virt : Bool} {n : ℕ} {inst : Inst}
  {tr tr₁ sunk tr' : Translator} {a a₁ a₂ a' : Allocation} {c : NativeCode} {s : State}
  {m₀ m : Machine State} {count : U64}
  (h : Backs layout clobber inst tr a tr₁ a₁ c sunk a₂ tr' a') (hcmd : inst.getCmd ∈ branchTypes)

include h

theorem code_extends : tr.code_ <+: sunk.code_ ∧ sunk.code_ <+: tr'.code_ := by
  obtain ⟨c₁, hc₁, -⟩ := h.pre.code
  obtain ⟨c₂, hc₂, -⟩ := h.sinks.code
  obtain ⟨c₃, hc₃, -⟩ := h.post.code
  constructor
  · rw [hc₂, hc₁, List.append_assoc, List.append_assoc]
    exact List.prefix_append _ _
  · rw [hc₃, List.append_assoc]
    exact List.prefix_append _ _

include hcmd

theorem holding (hb : Between insts virt n tr a) (hh : Holding layout clobber m₀ count tr a s m) : ∃ m',
    Holding layout clobber m₀ count sunk a₂ s m' ∧
      m'.flags = some (arith .cmp (s.regs.get inst.getRs1) (s.regs.get inst.getRs2)).2 := by
  obtain ⟨m₁, hthrough₁, hmoved₁, hreads⟩ := hh.reads hb h.pre
  have hcompared : Emits (env layout clobber) (Translator.compared inst) tr₁ m₁ _ :=
    emits_compared h.pre.allocated.uses (Allocation.Holds.refl hmoved₁.ready)
  obtain ⟨d, m₂, hd, hblock, hm₂, hflags⟩ := hcompared
  rw [appended_unique hd h.compared] at hblock
  have hvalues := values_of_held h.pre.allocated hmoved₁.ready hreads
  rw [hvalues _ (reads_branch hcmd).1, hvalues _ (reads_branch hcmd).2] at hflags
  have hlabels₁ := h.pre.labels hb.labels
  have hthrough₂ := hthrough₁.append (.of_block hblock) (Nat.zero_le _) hlabels₁
  have hlabels₂ : ∀ l, .label l ∈ tr₁.code_ ++ c → l < tr₁.labels := fun l hl ↦
    hlabels₁ l ((List.mem_append.mp hl).resolve_right (h.mild.straight.not_label l))
  obtain ⟨m₃, hthrough₃, hmoved₃⟩ := h.sinks.through hlabels₂ hthrough₂ hm₂.ready
  obtain ⟨hmirrors₁, hinsts₁⟩ := hh.mirrors.keeps hmoved₁.toKeeps
  obtain ⟨hmirrors₂, hinsts₂⟩ := hmirrors₁.keeps hm₂.toKeeps
  obtain ⟨hmirrors₃, hinsts₃⟩ := hmirrors₂.keeps hmoved₃.toKeeps
  refine ⟨m₃, ⟨hthrough₃, hmoved₃.ready, hmirrors₃, ?_, fun r hr ↦ ?_⟩, hmoved₃.flags.trans hflags⟩
  · rw [hinsts₃, hinsts₂, hinsts₁, hh.insts]
  · have hkept : look m₂ (a₁.loc r) = look m₁ (a₁.loc r) := by
      have hr₁ := (Allocation.Holds.refl (a := a₁) hmoved₁.ready).look hr
      rw [hr₁, hm₂.look hr]
    rw [hmoved₃.value r hr trivial, hkept, hmoved₁.value r hr (.inr (not_writes_branch hcmd r)), hh.value r hr]

omit hcmd in
theorem behind (hat : tr.At insts virt n) (hh : Holding layout clobber m₀ count sunk a₂ s m) : ∃ post m',
    tr'.code_ = sunk.code_ ++ .inst (.jcc (jumpOn inst.getCmd) 0) :: post ∧
      (block (env layout clobber) post).run m = .ok () m' ∧ m'.world = { s with
        pc := s.pc + BitVec.ofNat 32 (4 * n) + 4
        executed_insts := count } := by
  have hlink := setWidth_link tr m.world.pc
  rw [hat.offset] at hlink
  have hholds : a₂.Holds layout m m (a₂.regs m) := .refl hh.ready
  obtain ⟨m₁, hadd, hm₁⟩ := block_addPC clobber hholds _ hlink
  obtain ⟨d, hd, -, hrun⟩ := h.post.code
  obtain ⟨m₂, hblock, hmoved⟩ := hrun m₁ hm₁.ready
  refine ⟨addPC (tr.getOffset + 4) ++ d, m₂, ?_, by rw [block_append hadd, hblock], ?_⟩
  · rw [hd, List.append_assoc, List.cons_append]
  · have hworld : m₁.world = { (m.world.withPC (s.pc + BitVec.ofNat 32 (4 * n) + 4)) with
        regs := m₁.world.regs } := by
      have hpc : m.world.pc = s.pc := by rw [hh.mirrors]
      rw [← hpc]
      exact hm₁.world
    have hregs : m₂.world.regs = s.regs := by
      refine Regs.ext fun r ↦ ?_
      by_cases hr : r = 0
      · rw [hr, Regs.get_zero, Regs.get_zero]
      · have hvalue := hmoved.value r hr trivial
        rw [h.slots' r hr, hm₁.look hr, ← hholds.look hr, hh.value r hr] at hvalue
        exact hvalue
    rw [hmoved.world, hregs, hworld, hh.world_eq h.slots]
    rfl

end Backs

end Translator

section

variable {layout : Layout} {clobber : Clobber} {insts : List Inst} {virt : Bool} {i : ℕ} {inst : Inst}
  (hcmd : inst.getCmd ∈ transferTypes)

include hcmd

theorem exec_transfer (offset : U32) (s : State) : ∃ s',
    (inst.func_.exec inst offset).run s = .ok .endTrace s' := by
  rcases List.mem_cons.mp hcmd with hc | hcmd
  · exact ⟨_, exec_jal hc _ s⟩
  · rcases List.mem_cons.mp hcmd with hc | hc
    · exact ⟨_, exec_jalr hc _ s⟩
    · exact ⟨_, exec_branch hc _ s⟩

/-- The templates are right on every allocation, but for the jump back to the start. -/
theorem puts_transfer {s s' : State} {flow : Flow}
    (hx : (inst.func_.exec inst (BitVec.ofNat 32 (4 * i))).run s = .ok flow s')
    (hz : inst.getCmd ∈ branchTypes → takenOffset inst (BitVec.ofNat 64 (i * 4)) ≠ 0) :
    Puts layout clobber insts virt inst.translate inst i s s' := by
  rcases List.mem_cons.mp hcmd with hc | hcmd
  · rw [exec_jal hc] at hx
    cases hx
    exact puts_jal hc
  · rcases List.mem_cons.mp hcmd with hc | hc
    · rw [exec_jalr hc] at hx
      cases hx
      exact puts_jalr hc
    · rw [exec_branch hc] at hx
      cases hx
      exact puts_branch hc (hz hc)

theorem opcode_transfer : inst.getOpcode = .BRANCH ↔ inst.getCmd ∈ branchTypes := by
  refine ⟨fun hb ↦ ?_, opcode_branch⟩
  obtain ⟨imm, rs1, rs2, rd, c, hc⟩ := inst
  rcases List.mem_cons.mp hcmd with hc | hcmd
  · cases hc
    cases hb
  · rcases List.mem_cons.mp hcmd with hc | hc
    · cases hc
      cases hb
    · exact hc

theorem plain_transfer (hsup : inst.isTranslationSupported = true)
    (hz : inst.getCmd ∈ branchTypes → takenOffset inst (BitVec.ofNat 64 (i * 4)) ≠ 0) :
    Plain insts virt i inst.translate := by
  by_cases hb : inst.getCmd ∈ branchTypes
  · exact plain_branch hb (hz hb)
  · exact plain_of_supported hsup fun ho ↦ hb ((opcode_transfer hcmd).mp ho)

end

section

variable {body : List Inst} {last : Inst}

theorem again_append {s : State} : Again (body ++ [last]) s ↔
    Loops (body ++ [last]) ∧ last.takenIn s = true := by
  simp [Again]

theorem execution_iff {s t t' s' : State} (h : Arrives (body ++ [last]) s body.length t)
    (hx : (last.func_.exec last (BitVec.ofNat 32 (4 * body.length))).run t = .ok .endTrace t') :
    Execution (body ++ [last]) s s' ↔ s' = { t' with
      executed_insts := s.executed_insts + BitVec.ofNat 64 (body ++ [last]).length } := by
  have hinsts : t'.executed_insts = s.executed_insts :=
    ((ExecFunc.exec_keeps_insts _ _ _).of_ok hx).trans h.insts_eq
  have hchain : (execFrom body.length [last]).run t = .ok [body.length] t' := by
    rw [execFrom, run_bind_of_ok hx]
    rfl
  have hiff := h.execFrom_iff
  rw [List.drop_left, hchain] at hiff
  rw [← hinsts]
  constructor
  · rintro ⟨visited, u, hu, rfl⟩
    obtain ⟨v, hv⟩ := (hiff u).mp ⟨visited, hu⟩
    cases hv
    rfl
  · rintro rfl
    obtain ⟨visited, hv⟩ := (hiff t').mpr ⟨_, rfl⟩
    exact ⟨visited, t', hv, rfl⟩

theorem not_execution {insts : List Inst} {s t t' s' : State} {i : ℕ} {inst : Inst} {e : Stop}
    (h : Arrives insts s i t) (hi : insts[i]? = some inst)
    (hx : (inst.func_.exec inst (BitVec.ofNat 32 (4 * i))).run t = .error e t') :
    ¬ Execution insts s s' := by
  rintro ⟨visited, u, hu, -⟩
  obtain ⟨v, hv⟩ := (h.execFrom_iff u).mp ⟨visited, hu⟩
  obtain ⟨hlt, hget⟩ := List.getElem?_eq_some_iff.mp hi
  rw [List.drop_eq_getElem_cons hlt, hget, execFrom, run_bind_of_error hx] at hv
  cases hv

theorem branched_back {n : ℕ} {t : State} (hz : takenOffset last (BitVec.ofNat 64 (n * 4)) = 0)
    (htaken : last.takenIn t = true) : branched last (BitVec.ofNat 32 (4 * n)) t = t := by
  have hpc : t.pc + BitVec.ofNat 32 (4 * n) + last.getImm * 2 = t.pc := by
    have hoffset := setWidth_takenOffset last (BitVec.ofNat 64 (n * 4)) t.pc
    rw [hz, BitVec.setWidth_ofNat_of_le (by decide), Nat.mul_comm] at hoffset
    exact hoffset.symm.trans (BitVec.add_zero _)
  rw [branched, htaken, if_pos rfl, hpc]
  rfl

variable (hcmd : last.getCmd ∈ transferTypes)

include hcmd

theorem loops_append : Loops (body ++ [last]) ↔
    last.getCmd ∈ branchTypes ∧ takenOffset last (BitVec.ofNat 64 (body.length * 4)) = 0 := by
  rw [Loops, loopsFrom_append, opcode_transfer hcmd, Nat.zero_add]

end

section

variable {layout : Layout} {clobber : Clobber} {body : List Inst} {last : Inst} {virt : Bool}
  {code : NativeCode} (hcmd : last.getCmd ∈ transferTypes)
  (hbody : ∀ inst ∈ body, inst.isTerminator = false)
  (hf : getFunc (body ++ [last]) virt = some code)

include hf in
theorem getFunc_before : code =
    (before Inst.translate (body ++ [last]) virt (body.length + 1)).code_ ++ [.inst .ret] := by
  rw [getFunc, if_pos (List.all_eq_true.mpr (supported_of_getFunc hf))] at hf
  have hlen : body.length + 1 = (body ++ [last]).length := by rw [List.length_append, List.length_singleton]
  rw [hlen, before, List.take_length]
  exact (Option.some.inj hf).symm

theorem getElem_body {i : ℕ} (hi : i < body.length) {inst : Inst} (hinst : (body ++ [last])[i]? = some inst) :
    inst ∈ body := by
  rw [List.getElem?_append_left hi] at hinst
  exact List.mem_of_getElem? hinst

theorem getElem_last : (body ++ [last])[body.length]? = some last := by
  rw [List.getElem?_append_right le_rfl, Nat.sub_self]
  rfl

include hbody hf in
theorem plain_body {i : ℕ} (hi : i < body.length) (inst : Inst) (hinst : (body ++ [last])[i]? = some inst) :
    PlainOn (prepared Inst.translate (body ++ [last]) virt i inst) inst.translate := by
  refine plainOn_prepared (fun j hj inst' hinst' ↦ ?_) i hi inst hinst
  exact plain_of_supported (supported_of_getFunc hf inst' (List.mem_of_getElem? hinst'))
    (opcode_of_not_isTerminator (hbody inst' (getElem_body hj hinst')))

include hcmd hbody hf

theorem before_prefix_code :
    (before Inst.translate (body ++ [last]) virt body.length).code_ <+: code := by
  have hlast := supported_of_getFunc hf last (List.mem_append_right _ (List.mem_singleton_self last))
  rw [getFunc_before hf]
  refine List.IsPrefix.trans ?_ (List.prefix_append _ _)
  by_cases hl : Loops (body ++ [last])
  · obtain ⟨hb, hz⟩ := (loops_append hcmd).mp hl
    obtain ⟨a, hbetween⟩ := between_before virt (by simp) fun i hi ↦ plain_body hbody hf hi
    obtain ⟨tr₁, a₁, c, sunk, a₂, a', h⟩ := exists_backs ⟨0, 0⟩ (fun _ _ _ ↦ 0) hbetween hb hz
    rw [before_succ getElem_last]
    exact h.code_extends.1.trans h.code_extends.2
  · refine before_extends (Nat.le_succ _) (by simp) fun i hi inst hinst ↦ ?_
    rcases Nat.lt_or_eq_of_le (Nat.le_of_lt_succ hi) with hlt | rfl
    · exact plain_body hbody hf hlt inst hinst
    · rw [getElem_last] at hinst
      cases hinst
      obtain ⟨a, hbetween⟩ := between_before virt (by simp) fun i hi ↦ plain_body hbody hf hi
      exact (plain_transfer hcmd hlast fun hb hz ↦ hl ((loops_append hcmd).mpr ⟨hb, hz⟩)).on hbetween last

omit hcmd hf in
theorem arrives_or_throws_body (s : State) : (∃ t, Arrives (body ++ [last]) s body.length t) ∨
    ∃ i < body.length, ∃ t inst e t', Arrives (body ++ [last]) s i t ∧ (body ++ [last])[i]? = some inst ∧
      (inst.func_.exec inst (BitVec.ofNat 32 (4 * i))).run t = .error e t' :=
  arrives_or_throws s (by simp) fun _ hi inst hinst ↦ hbody inst (getElem_body hi hinst)

section

variable {s t t' : State} {m : Machine State}
  (hright : BodyRightOn layout clobber (body ++ [last]) virt body.length s) (hm : Ready layout m)
  (hworld : m.world = s) (h : Arrives (body ++ [last]) s body.length t)

include hright hm hworld

theorem stuck_of_throws {i : ℕ} (hi : i < body.length) {inst : Inst}
    (hinst : (body ++ [last])[i]? = some inst) (h : Arrives (body ++ [last]) s i t) {e : Stop}
    (hx : (inst.func_.exec inst (BitVec.ofNat 32 (4 * i))).run t = .error e t') :
    Stuck (env layout clobber) 0 code m := by
  have hplain := fun i hi ↦ plain_body hbody hf (i := i) hi
  have hstuck := stuck_throws (supported_of_getFunc hf) hplain hright hm hworld hi hinst h hx
  have hextends : (before Inst.translate (body ++ [last]) virt (i + 1)).code_ <+: code :=
    (before_extends hi (by simp) hplain).trans (before_prefix_code hcmd hbody hf)
  obtain ⟨rest, rfl⟩ := hextends
  exact hstuck.append rest

include h

/-- A trace that is no loop is gone through once. -/
theorem forward_returns (hl : ¬ Loops (body ++ [last]))
    (hx : (last.func_.exec last (BitVec.ofNat 32 (4 * body.length))).run t = .ok .endTrace t') :
    ∃ m', m'.world = { t' with
        executed_insts := s.executed_insts + BitVec.ofNat 64 (body ++ [last]).length } ∧
      Returns (env layout clobber) code m m' := by
  have hsup := supported_of_getFunc hf
  have hlast := hsup last (List.mem_append_right _ (List.mem_singleton_self last))
  obtain ⟨a, m₁, hb, hh⟩ := holding_arrives hsup (fun i hi ↦ plain_body hbody hf hi) hright hm hworld
    le_rfl (by simp) h
  have hz : last.getCmd ∈ branchTypes → takenOffset last (BitVec.ofNat 64 (body.length * 4)) ≠ 0 :=
    fun hb hz ↦ hl ((loops_append hcmd).mpr ⟨hb, hz⟩)
  obtain ⟨a', m', hb', hh'⟩ := hh.round hb getElem_last hlast ((plain_transfer hcmd hlast hz).on hb last) hx
    ((puts_transfer hcmd hx hz).on (hb.prepared last))
  rw [← before_succ getElem_last] at hb' hh'
  have hlen : body.length + 1 = (body ++ [last]).length := by rw [List.length_append, List.length_singleton]
  have hend : Between (body ++ [last]) virt (body ++ [last]).length
      (before Inst.translate (body ++ [last]) virt (body.length + 1)) a' := by
    rw [← hlen]
    exact hb'
  refine ⟨m', (hh'.ends hend).2, ?_⟩
  rw [getFunc_before hf]
  exact hh'.through.returns_ret

/-- The code of a loop comes to the jump with the whole state in memory. -/
theorem back_jumps (hl : Loops (body ++ [last])) :
    let count := s.executed_insts + BitVec.ofNat 64 (body ++ [last]).length
    ∃ m', Ready layout m' ∧ m'.world = { t with executed_insts := count } ∧
      (last.takenIn t = true → Restarts (env layout clobber) code m m') ∧
      (last.takenIn t = false → ∃ m'', m''.world = { t with
          pc := t.pc + BitVec.ofNat 32 (4 * body.length) + 4
          executed_insts := count } ∧ Returns (env layout clobber) code m m'') := by
  intro count
  obtain ⟨hbranch, hz⟩ := (loops_append hcmd).mp hl
  have hplain := fun i hi ↦ plain_body hbody hf (i := i) hi
  obtain ⟨a, m₁, hb, hh⟩ := holding_arrives (supported_of_getFunc hf) hplain hright hm hworld le_rfl
    (by simp) h
  obtain ⟨tr₁, a₁, c, sunk, a₂, a', hbacks⟩ := exists_backs layout clobber hb hbranch hz
  obtain ⟨m', hh', hflags⟩ := hbacks.holding hbranch hb hh
  obtain ⟨post, m'', hpost, hblock, hworld''⟩ := hbacks.behind hb.next hh'
  have hholds := holds_jumpOn hbranch (t.regs.get last.getRs1) (t.regs.get last.getRs2)
  -- the label at the start is the one that is jumped to
  have hstart : ∃ d, sunk.code_ = .label 0 :: d := by
    have hentered := (before_extends (Nat.zero_le body.length) (by simp) hplain).trans hbacks.code_extends.1
    obtain ⟨rest, hrest⟩ := hentered
    exact ⟨_, hrest.symm⟩
  obtain ⟨d, hd⟩ := hstart
  have hcode : code = .label 0 :: d ++ .inst (.jcc (jumpOn last.getCmd) 0) :: (post ++ [.inst .ret]) := by
    rw [getFunc_before hf, before_succ getElem_last]
    dsimp only
    rw [hpost, hd, List.append_assoc]
    rfl
  have hthrough := hh'.through
  rw [hd] at hthrough
  refine ⟨m', hh'.ready, hh'.world_eq hbacks.slots, fun htaken ↦ ?_, fun htaken ↦ ⟨m'', hworld'', ?_⟩⟩
  · rw [hcode]
    exact hthrough.restarts hflags (hholds.trans htaken)
  · rw [hcode]
    exact hthrough.returns_behind hflags (hholds.trans htaken) hblock

end

/-- Each run of the code is an execution of the interpreter, the last or one of many. -/
theorem passes_prepared : Passes (env layout clobber) code
    (fun m ↦ Ready layout m ∧ AlwaysRightOn layout clobber (body ++ [last]) virt body.length m.world)
    Machine.world (Execution (body ++ [last])) (Again (body ++ [last])) where
  restarts m b hm hb hagain := by
    obtain ⟨hm, hright⟩ := hm
    obtain ⟨hl, htaken⟩ := again_append.mp hagain
    obtain ⟨hbranch, hz⟩ := (loops_append hcmd).mp hl
    rcases arrives_or_throws_body hbody m.world with ⟨t, h⟩ | ⟨i, _, t, inst, e, t', h, hi, hx⟩
    · have hend := (execution_iff h (exec_branch hbranch _ t)).mp hb
      obtain ⟨m', hm', hworld, hrestarts, -⟩ := back_jumps hcmd hbody hf (hright _ .refl) hm rfl h hl
      have hsame : last.takenIn b = last.takenIn t := by
        rw [hend]
        rfl
      rw [hsame] at htaken
      have hback : m'.world = b := by rw [hworld, hend, branched_back hz htaken]
      refine ⟨m', ⟨hm', fun t ht ↦ hright t ?_⟩, hback, hrestarts htaken⟩
      rw [hback] at ht
      exact ht.head ⟨hb, hagain⟩
    · exact absurd hb (not_execution h hi hx)
  returns m b hm hb hagain := by
    obtain ⟨hm, hright⟩ := hm
    rcases arrives_or_throws_body hbody m.world with ⟨t, h⟩ | ⟨i, _, t, inst, e, t', h, hi, hx⟩
    · by_cases hl : Loops (body ++ [last])
      · obtain ⟨hbranch, -⟩ := (loops_append hcmd).mp hl
        have hend := (execution_iff h (exec_branch hbranch _ t)).mp hb
        have htaken : last.takenIn t = false := by
          refine Bool.eq_false_of_not_eq_true fun htaken ↦ hagain (again_append.mpr ⟨hl, ?_⟩)
          rw [hend]
          exact htaken
        obtain ⟨m', -, -, -, hreturns⟩ := back_jumps hcmd hbody hf (hright _ .refl) hm rfl h hl
        obtain ⟨m'', hworld, hm''⟩ := hreturns htaken
        refine ⟨m'', ?_, hm''⟩
        rw [hworld, hend, branched, htaken, if_neg Bool.false_ne_true]
        rfl
      · obtain ⟨t', hx⟩ := exec_transfer hcmd (BitVec.ofNat 32 (4 * body.length)) t
        obtain ⟨m', hworld, hm'⟩ := forward_returns hcmd hbody hf (hright _ .refl) hm rfl h hl hx
        exact ⟨m', hworld.trans ((execution_iff h hx).mp hb).symm, hm'⟩
    · exact absurd hb (not_execution h hi hx)
  stuck m hm hb := by
    obtain ⟨hm, hright⟩ := hm
    rcases arrives_or_throws_body hbody m.world with ⟨t, h⟩ | ⟨i, hlt, t, inst, e, t', h, hi, hx⟩
    · obtain ⟨t', hx⟩ := exec_transfer hcmd (BitVec.ofNat 32 (4 * body.length)) t
      exact absurd ((execution_iff h hx).mpr rfl) (hb _)
    · exact stuck_of_throws hcmd hbody hf (hright _ .refl) hm rfl hlt hi h hx

end

theorem Execution.insts_eq {insts : List Inst} {s s' : State} (h : Execution insts s s') :
    s'.executed_insts = s.executed_insts + BitVec.ofNat 64 insts.length := by
  obtain ⟨visited, t, hx, rfl⟩ := h
  rw [← (execFrom_keeps stable_insts.data ExecFunc.exec_keeps_insts 0 insts).of_ok hx]

theorem executions_insts {insts : List Inst} {n : ℕ} {s s' : State}
    (h : Repeats (Execution insts) (Again insts) n s s') :
    s'.executed_insts = s.executed_insts + BitVec.ofNat 64 (n * insts.length) := by
  induction h with
  | once hx _ => rw [hx.insts_eq, Nat.one_mul]
  | more hx _ _ ih =>
    rw [ih, hx.insts_eq, BitVec.add_assoc, ← BitVec.ofNat_add, Nat.succ_mul, Nat.add_comm insts.length]

/-- Native control transfer agrees with the interpreter, given that the code before it is right: the
template on every allocation, and a call that returns with the executions up to the first whose
branch does not jump back, which is the first of all unless the trace is a loop. -/
theorem transfer_agrees {layout : Layout} {clobber : Clobber} {body : List Inst} {last : Inst}
    {virt : Bool} {code : NativeCode} {m₀ : Machine State} (hcmd : last.getCmd ∈ transferTypes)
    (hbody : ∀ inst ∈ body, inst.isTerminator = false)
    (hf : getFunc (body ++ [last]) virt = some code) (hm : Ready layout m₀)
    (hright : AlwaysRightOn layout clobber (body ++ [last]) virt body.length m₀.world) :
    let insts := body ++ [last]
    (¬ Loops insts → ∀ flow s s',
      (last.func_.exec last (BitVec.ofNat 32 (4 * body.length))).run s = .ok flow s' →
        Puts layout clobber insts virt last.translate last body.length s s') ∧
    (∀ fuel m, (run (env layout clobber) .outOfFuel code fuel code).run m₀ = .ok () m →
      ∃ n, Repeats (Execution insts) (Again insts) n m₀.world m.world) ∧
    ∀ n s', Repeats (Execution insts) (Again insts) n m₀.world s' →
      s'.executed_insts = m₀.world.executed_insts + BitVec.ofNat 64 (n * insts.length) ∧
      (¬ Loops insts → n = 1) ∧ ∃ m, m.world = s' ∧ Returns (env layout clobber) code m₀ m := by
  intro insts
  have hpasses : Passes (env layout clobber) code _ Machine.world _ _ := passes_prepared hcmd hbody hf
  refine ⟨fun hl flow s s' hx ↦ ?_, fun fuel m hr ↦ ?_, fun n s' hn ↦ ⟨executions_insts hn, fun hl ↦ ?_, ?_⟩⟩
  · exact puts_transfer hcmd hx fun hb hz ↦ hl ((loops_append hcmd).mpr ⟨hb, hz⟩)
  · exact hpasses.repeats ⟨hm, hright⟩ hr
  · cases hn with
    | once _ _ => rfl
    | more _ hagain _ => exact absurd hagain.1 hl
  · exact hpasses.of_repeats ⟨hm, hright⟩ hn

/-- `addi x1, x1, -1`, `sub x2, x2, x1` and `bne x1, x0, -8`, entered with 2 in `x1`: the template of SUB is
right on the allocation that it meets. -/
theorem transfer_agrees_countdown :
    let addi := genI ⟨.ADDI, by decide⟩ 1 1 (-1)
    let sub := genR ⟨.SUB, by decide⟩ 2 2 1
    let bne := genB ⟨.BNE, by decide⟩ (-4) 1 0
    ∃ code m, getFunc [addi, sub, bne] false = some code ∧ m.world.regs.get 1 = 0 ∧
      m.world.regs.get 2 = 0xffffffff ∧ m.world.pc = 12 ∧ m.world.executed_insts = 6 ∧
      Returns (env ⟨0, 0⟩ fun _ _ _ ↦ 0) code (atEntry (Regs.fill0.set 1 2)) m := by
  intro addi sub bne
  let down : State → State := fun s ↦ { s with regs := s.regs.set 1 (s.regs.get 1 + -1) }
  let less : State → State := fun s ↦
    { s with regs := s.regs.set 2 (combine .SUB (s.regs.get 2) (s.regs.get 1)) }
  let pass : State → State := fun s ↦
    { branched bne 8 (less (down s)) with executed_insts := s.executed_insts + 3 }
  let s₀ : State := (atEntry (Regs.fill0.set 1 2)).world
  have hsub : sub.getCmd ∈ regTypes := by decide
  have haddi : ∀ s, (addi.func_.exec addi 0).run s = .ok .nextInst (down s) := fun s ↦ rfl
  have hless : ∀ s, (sub.func_.exec sub 4).run s = .ok .nextInst (less s) := fun s ↦ exec_regType hsub 4 s
  have hpass : ∀ s, Execution [addi, sub, bne] s (pass s) := fun s ↦ ⟨[0, 1, 2], _, rfl, rfl⟩
  have hbody : ∀ inst ∈ [addi, sub], inst.isTerminator = false := by decide
  obtain ⟨code, hcode⟩ : ∃ code, getFunc ([addi, sub] ++ [bne]) false = some code := ⟨_, rfl⟩
  have hright : AlwaysRightOn ⟨0, 0⟩ (fun _ _ _ ↦ 0) [addi, sub, bne] false 2 s₀ := by
    intro t _ i hi inst t' hinst _
    have hat : (prepared Inst.translate [addi, sub, bne] false i inst).At [addi, sub, bne] false i :=
      at_prepared (List.getElem?_eq_some_iff.mp hinst).1.le fun j hj ↦
        plain_body hbody hcode (hj.trans hi)
    obtain rfl | rfl : i = 0 ∨ i = 1 := by omega
    · cases hinst
      refine ⟨fun flow s' hx ↦ ?_, fun e s' hx ↦ ?_⟩
      · cases (haddi t').symm.trans hx
        exact (puts_immediate (by decide)).on hat
      · cases (haddi t').symm.trans hx
    · cases hinst
      refine ⟨fun flow s' hx ↦ ?_, fun e s' hx ↦ ?_⟩
      · cases (hless t').symm.trans hx
        refine putsOn_of_value (Inst.writes_iff.mpr ⟨rfl, rfl⟩) fun a m huses hm _ hreads ↦ ?_
        have htemplate := regType_template (fun _ _ _ ↦ 0) hsub huses hm
        rw [if_neg (by decide), hreads _ (Inst.reads_iff.mpr (.inl ⟨rfl, rfl⟩)),
          hreads _ (Inst.reads_iff.mpr (.inr ⟨rfl, rfl⟩))] at htemplate
        exact htemplate
      · cases (hless t').symm.trans hx
  have hloops : Loops [addi, sub, bne] := ⟨bne, rfl, rfl, by decide⟩
  have htwice : Repeats (Execution [addi, sub, bne]) (Again [addi, sub, bne]) 2 s₀ (pass (pass s₀)) := by
    refine .more (hpass s₀) ⟨hloops, bne, rfl, by decide⟩ (.once (hpass _) ?_)
    rintro ⟨-, inst, hinst, htaken⟩
    cases hinst
    exact absurd htaken (by decide)
  have hm : Ready ⟨0, 0⟩ (atEntry (Regs.fill0.set 1 2)) := rfl
  have hbne : bne.getCmd ∈ transferTypes := by decide
  obtain ⟨-, -, hruns⟩ := transfer_agrees hbne hbody hcode hm hright
  obtain ⟨-, -, m, hworld, hreturns⟩ := hruns 2 _ htwice
  refine ⟨code, m, hcode, ?_, ?_, ?_, ?_, hreturns⟩ <;> rw [hworld] <;> decide

end RiscvSim
