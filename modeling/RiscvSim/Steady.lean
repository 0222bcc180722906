import RiscvSim.Allocator
import RiscvSim.MemTemplates
import RiscvSim.Library.X86Run

namespace RiscvSim

open Isa Ir X86 Results Translator Native TranslateInst

/-- The `State` object lies where no access to guest memory from a 32-bit register and a 32-bit
displacement gets. -/
def Layout.Apart (layout : Layout) : Prop :=
  ∀ v imm : U32, 152 ≤ (v.setWidth 64 + layout.mem + imm.signExtend 64 - layout.state).toNat

theorem apart_upperHalf : (⟨1#64 <<< 63, 0#64⟩ : Layout).Apart := by
  intro v imm
  have hv := v.isLt
  have hi := imm.isLt
  change 152 ≤ (v.setWidth 64 + 0#64 + imm.signExtend 64 - 1#64 <<< 63).toNat
  rw [BitVec.add_zero, BitVec.toNat_sub, BitVec.toNat_add, BitVec.toNat_signExtend,
    BitFields.setWidth_toNat (by decide), BitFields.setWidth_toNat (by decide)]
  have hstate : (1#64 <<< 63).toNat = 2 ^ 63 := by decide
  cases hm : imm.msb with
  | false =>
    rw [BitVec.msb_eq_false_iff_two_mul_lt] at hm
    simp only [hstate, Bool.false_eq_true, if_false]
    omega
  | true =>
    rw [BitVec.msb_eq_true_iff_two_mul_ge] at hm
    simp only [hstate, if_true]
    omega

/-- `rdi` and the instruction count survive. -/
structure Calm (layout : Layout) (m m' : Machine State) : Prop where
  ready : Ready layout m → Ready layout m'
  insts : Ready layout m → m'.world.executed_insts = m.world.executed_insts

theorem Calm.trans {layout : Layout} {m m' m'' : Machine State} (h : Calm layout m m')
    (h' : Calm layout m' m'') : Calm layout m m'' :=
  ⟨fun hm ↦ h'.ready (h.ready hm), fun hm ↦ (h'.insts (h.ready hm)).trans (h.insts hm)⟩

theorem Calm.refl {layout : Layout} (m : Machine State) : Calm layout m m := ⟨id, fun _ ↦ rfl⟩

/-- Straight code that, where it calls no function and gets through, is calm. -/
structure Steady (layout : Layout) (clobber : Clobber) (c : NativeCode) : Prop where
  straight : Straight c
  calm : (∀ f, .inst (.call f) ∉ c) → ∀ m m', (block (env layout clobber) c).run m = .ok () m' →
    Calm layout m m'

/-- An operand other than `rdi` and the instruction count. -/
def Writable : Operand → Prop
  | .reg g _ => g ≠ .rdi
  | .mem a => a.base = .rdi ∧ a.disp.toNat < 144
  | .imm _ => True

theorem writable_tmp1 : Writable TMP1 := (by decide : Gp.rax ≠ .rdi)

theorem writable_tmp2 : Writable TMP2 := (by decide : Gp.rdx ≠ .rdi)

theorem writable_pc : Writable PC := ⟨rfl, by decide⟩

theorem writable_slot (r : Reg) : Writable (getRegMemOp r) := by
  refine ⟨rfl, ?_⟩
  have hr := r.isLt
  rw [toNat_slotOffset]
  omega

theorem Translator.Uses.writable {tr : Translator} {a : Allocation} (h : tr.Uses a) (r : Reg) :
    Writable (tr.getReg r) := by
  rw [h]
  by_cases hr : r = 0
  · rw [hr, a.src_zero]
    trivial
  · rw [a.src_of_ne hr]
    have hu := a.usable hr
    cases hl : a.loc r with
    | host g =>
      rw [hl] at hu
      exact hu
    | slot r' => exact writable_slot r'

def Gentle : X86.Inst Callee → Prop
  | .bin _ dst _ | .set _ dst | .pop dst => Writable dst
  | .mul _ | .push _ | .call _ => True
  | .jcc .. | .jmp _ | .ret => False

theorem Gentle.falls {i : X86.Inst Callee} (h : Gentle i) : i.falls = true := by
  cases i with
  | jcc | jmp | ret => exact h.elim
  | bin | set | mul | push | pop | call => rfl

section

variable {layout : Layout} {clobber : Clobber}

theorem store_insts {disp : U64} (h : disp.toNat < 144) {w : ℕ} {v : BitVec w} {s s' : State}
    (hs : store layout (layout.state + disp) v s = .ok s') : s'.executed_insts = s.executed_insts := by
  rw [store, placeOf_state (by omega), fieldAt] at hs
  split at hs
  · next hp =>
    split at hs
    · cases hs
      rfl
    · cases hs
  · next hp =>
    split at hs
    · cases hs
      rfl
    · cases hs
  · next hp =>
    split at hp
    · split at hp <;> cases hp
    · split at hp
      · cases hp
      · split at hp
        · cases hp
        · rw [if_neg (by omega)] at hp
          cases hp
  · next hp =>
    split at hs
    · cases hs
      rfl
    · cases hs
  · cases hs
  · cases hs

theorem calm_set (m : Machine State) {g : Gp} (hg : g ≠ .rdi) {w : ℕ} (v : BitVec w) :
    Calm layout m (m.set g v) := ⟨fun hm ↦ hm.set hg v, fun _ ↦ rfl⟩

theorem calm_mul (m : Machine State) {w : ℕ} (p q : BitVec w) :
    Calm layout m { (m.set .rax p).set .rdx q with flags := none } := by
  have h : Calm layout m ((m.set .rax p).set .rdx q) :=
    (calm_set m (by decide : Gp.rax ≠ .rdi) p).trans (calm_set _ (by decide : Gp.rdx ≠ .rdi) q)
  exact ⟨h.ready, h.insts⟩

theorem X86.Assigns.calm {dst : Operand} (hd : Writable dst) {m m' : Machine State}
    (h : Assigns (env layout clobber) dst m m') : Calm layout m m' := by
  cases h with
  | none f => exact ⟨fun hm ↦ hm.withFlags f, fun _ ↦ rfl⟩
  | @some w v m₁ h f =>
    have hm₁ : Calm layout m m₁ := by
      cases dst with
      | imm x => cases h
      | reg g w' =>
        cases h
        exact calm_set m hd v
      | mem a =>
        change (store layout (m.regs a.base + a.disp) v m.world).map _ = _ at h
        cases hs : store layout (m.regs a.base + a.disp) v m.world with
        | error e =>
          rw [hs] at h
          cases h
        | ok s =>
          rw [hs] at h
          cases h
          refine ⟨id, fun hm ↦ ?_⟩
          rw [hd.1, show m.regs .rdi = layout.state from hm] at hs
          exact store_insts hd.2 hs
    exact ⟨fun hm ↦ (hm₁.ready hm).withFlags f, hm₁.insts⟩

theorem exec_calm {i : X86.Inst Callee} (hi : Gentle i) (hcall : ∀ f, i ≠ .call f)
    {m m' : Machine State} (h : (exec (env layout clobber) i).run m = .ok () m') : Calm layout m m' := by
  rw [exec, run_bind_of_ok (EStateM.run_get m)] at h
  cases i with
  | bin id dst src => exact (execBin_assigns (run_set_lift h)).calm hi
  | set c dst => exact (execSet_assigns (run_set_lift h)).calm hi
  | mul src =>
    obtain ⟨w, p, q, rfl⟩ := execMul_ok (run_set_lift h)
    exact calm_mul m p q
  | push src =>
    obtain ⟨v, rfl⟩ := execPush_ok (run_set_lift h)
    exact ⟨id, fun _ ↦ rfl⟩
  | pop dst =>
    obtain ⟨r, w, v, stack, rfl, rfl⟩ := execPop_ok (run_set_lift h)
    exact ⟨fun hm ↦ hm.set hi v, fun _ ↦ rfl⟩
  | call f => exact absurd rfl (hcall f)
  | jcc | jmp | ret => exact hi.elim

namespace Steady

theorem nil : Steady layout clobber [] where
  straight := .nil
  calm _ m m' h := by
    cases h
    exact .refl m

theorem append {c d : NativeCode} (hc : Steady layout clobber c) (hd : Steady layout clobber d) :
    Steady layout clobber (c ++ d) where
  straight := hc.straight.append hd.straight
  calm hcall m m' h := by
    obtain ⟨m₁, h₁, h₂⟩ := block_append_ok h
    exact (hc.calm (fun f hf ↦ hcall f (List.mem_append_left _ hf)) m m₁ h₁).trans
      (hd.calm (fun f hf ↦ hcall f (List.mem_append_right _ hf)) m₁ m' h₂)

theorem inst {i : X86.Inst Callee} (hi : Gentle i) : Steady layout clobber [.inst i] where
  straight item h := ⟨i, List.mem_singleton.mp h, hi.falls⟩
  calm hcall m m' h := by
    obtain ⟨u, m₁, hx, h₁⟩ := run_bind_eq_ok.mp h
    cases h₁
    exact exec_calm hi (fun f hf ↦ hcall f (by rw [hf]; exact List.mem_singleton_self _)) hx

end Steady

/-- Code of gentle instructions. -/
def Mild (c : NativeCode) : Prop := ∀ item ∈ c, ∃ i : X86.Inst Callee, item = .inst i ∧ Gentle i

namespace Mild

variable {c d : NativeCode}

theorem nil : Mild [] := by
  intro item hi
  cases hi

theorem append (hc : Mild c) (hd : Mild d) : Mild (c ++ d) := by
  intro item hi
  rcases List.mem_append.mp hi with hi | hi
  · exact hc item hi
  · exact hd item hi

theorem inst {i : X86.Inst Callee} (hi : Gentle i) : Mild [.inst i] :=
  fun _ h ↦ ⟨i, List.mem_singleton.mp h, hi⟩

theorem emit {i : X86.Inst Callee} (hi : Gentle i) : Mild (X86.emit i) := by
  rw [X86.emit]
  split
  · exact inst hi
  · exact nil

theorem straight (h : Mild c) : Straight c := by
  intro item hi
  obtain ⟨i, rfl, hg⟩ := h item hi
  exact ⟨i, rfl, hg.falls⟩

theorem steady (h : Mild c) : Steady layout clobber c := by
  induction c with
  | nil => exact .nil
  | cons item c ih =>
    obtain ⟨i, rfl, hi⟩ := h item List.mem_cons_self
    exact Steady.append (c := [.inst i]) (.inst hi) (ih fun x hx ↦ h x (List.mem_cons_of_mem _ hx))

end Mild

/-- The template appends code with `P`, and changes nothing else of the translator. -/
def Appends (P : NativeCode → Prop) (x : Tr Unit) (tr : Translator) : Prop :=
  ∃ c, (∀ pre, x.run { tr with code_ := pre } = ((), { tr with code_ := pre ++ c })) ∧ P c

namespace Appends

variable {P Q : NativeCode → Prop} {x y : Tr Unit} {tr : Translator}

theorem mono (h : Appends P x tr) (hPQ : ∀ c, P c → Q c) : Appends Q x tr := by
  obtain ⟨c, hx, hc⟩ := h
  exact ⟨c, hx, hPQ c hc⟩

theorem append {R : NativeCode → Prop} (hx : Appends P x tr) (hy : Appends Q y tr)
    (h : ∀ c d, P c → Q d → R (c ++ d)) : Appends R (do x; y) tr := by
  obtain ⟨c, hc, hpc⟩ := hx
  obtain ⟨d, hd, hpd⟩ := hy
  refine ⟨c ++ d, fun pre ↦ ?_, h c d hpc hpd⟩
  rw [StateT.run_bind, hc pre]
  change y.run { tr with code_ := pre ++ c } = _
  rw [hd (pre ++ c), List.append_assoc]

theorem seq (hx : Appends Mild x tr) (hy : Appends Mild y tr) :
    Appends Mild (do x; y) tr := hx.append hy fun _ _ ↦ .append

theorem pure : Appends Mild (Pure.pure ()) tr :=
  ⟨[], fun pre ↦ by rw [List.append_nil]; rfl, .nil⟩

theorem emit {i : X86.Inst Callee} (hi : Gentle i) :
    Appends Mild (Translator.emit i) tr := ⟨X86.emit i, fun _ ↦ rfl, .emit hi⟩

theorem move {dst : Operand} (hd : Writable dst) (src : Operand) :
    Appends Mild (translateMove dst src) tr := by
  rw [translateMove]
  split
  · exact emit hd
  · exact emit hd

theorem moveVia {dst : Operand} (hd : Writable dst) (src : Operand) :
    Appends Mild (TranslateInst.moveVia dst src) tr := by
  rw [TranslateInst.moveVia]
  split
  · exact move hd src
  · exact seq (move writable_tmp1 src) (move hd _)

theorem congr_run (hxy : ∀ pre, x.run { tr with code_ := pre } = y.run { tr with code_ := pre })
    (h : Appends P y tr) : Appends P x tr := by
  obtain ⟨c, hy, hc⟩ := h
  exact ⟨c, fun pre ↦ (hxy pre).trans (hy pre), hc⟩

variable {inst : Inst}

theorem RS1 {k : Operand → Tr Unit} (h : Appends P (k (tr.getReg inst.getRs1)) tr) :
    Appends P (TranslateInst.RS1 inst >>= k) tr := h

theorem RS2 {k : Operand → Tr Unit} (h : Appends P (k (tr.getReg inst.getRs2)) tr) :
    Appends P (TranslateInst.RS2 inst >>= k) tr := h

theorem RD {k : Operand → Tr Unit} (h : Appends P (k (tr.getReg inst.getRd)) tr) :
    Appends P (TranslateInst.RD inst >>= k) tr := h

theorem OFFSET {k : U64 → Tr Unit} (h : Appends P (k tr.getOffset) tr) :
    Appends P (TranslateInst.OFFSET >>= k) tr := h

/-- The operand a comparison starts from. -/
theorem firstOperand {a : Allocation} (huses : tr.Uses a) {k : Operand → Tr Unit}
    (hk : ∀ op, Writable op → Appends Mild (k op) tr) :
    Appends Mild (TranslateInst.firstOperand inst >>= k) tr := by
  by_cases hc : ((tr.getReg inst.getRs1).isMem || (tr.getReg inst.getRs1).isImm) = true
  · refine congr_run (fun pre ↦ ?_)
      (seq (move writable_tmp1 (tr.getReg inst.getRs1)) (hk TMP1 writable_tmp1))
    rw [StateT.run_bind, run_firstOperand, if_pos hc]
    rfl
  · refine congr_run (fun pre ↦ ?_) (hk (tr.getReg inst.getRs1) (huses.writable _))
    rw [StateT.run_bind, run_firstOperand, if_neg hc]
    rfl

end Appends

section

variable {a : Allocation} {tr : Translator} (huses : tr.Uses a) (inst : Inst)

include huses

theorem mild_immType (id : Id) : Appends Mild (translateImmType inst id) tr := by
  have hrd := huses.writable inst.getRd
  rw [translateImmType]
  split
  · exact .pure
  · refine .RD (.RS1 ?_)
    split
    · exact .seq (.moveVia hrd _) (.emit hrd)
    · exact .emit hrd

theorem mild_regType (id : Id) : Appends Mild (translateRegType inst id) tr := by
  have hrd := huses.writable inst.getRd
  rw [translateRegType]
  split
  · exact .pure
  · refine .RD (.RS1 (.RS2 ?_))
    split
    · split
      · exact .emit hrd
      · exact .seq (.move writable_tmp1 _) (.emit hrd)
    · split
      · exact .seq (.move hrd _) (.emit hrd)
      · exact .seq (.move writable_tmp1 _) (.seq (.emit writable_tmp1) (.move hrd _))

theorem mild_shift (id : Id) : Appends Mild (translateShift inst id) tr := by
  have hrd := huses.writable inst.getRd
  have hrcx : Writable (.reg .rcx 32) := (by decide : Gp.rcx ≠ .rdi)
  have hcount : Appends Mild (do
      if inst.getRs2 = 0 then return
      translateMove TMP1 (.reg .rcx 32)
      translateMove (.reg .rcx 32) (← TranslateInst.RS2 inst)
      Translator.emit (.bin id (tr.getReg inst.getRd) (.reg .rcx 8))
      translateMove (.reg .rcx 32) TMP1) tr := by
    split
    · exact .pure
    · exact .seq (.move writable_tmp1 _)
        (.RS2 (.seq (.move hrcx _) (.seq (.emit hrd) (.move hrcx _))))
  rw [translateShift]
  split
  · exact .pure
  · refine .RD (.RS1 ?_)
    dsimp only
    by_cases hmem : (tr.getReg inst.getRd).isMem = true
    · simp only [hmem, if_true]
      split
      · exact .seq (.move writable_tmp1 _) (.seq (.move hrd _) hcount)
      · exact .seq (.move hrd _) hcount
    · simp only [hmem, Bool.false_eq_true, if_false]
      split
      · exact .seq (.move hrd _) hcount
      · exact hcount

theorem mild_set (cond : Cond) : Appends Mild (translateSet inst cond) tr := by
  have hrd := huses.writable inst.getRd
  rw [translateSet]
  exact .firstOperand huses fun fst hfst ↦
    .RS2 (.seq (.emit hfst) (.RD (.seq (.emit hrd) (.RD (.emit hrd)))))

theorem mild_setImm (cond : Cond) (v : U64) : Appends Mild (do
    Translator.emit (.bin .cmp (← TranslateInst.RS1 inst) (.imm v))
    Translator.emit (.bin .mov (← TranslateInst.RD inst) (.imm 0))
    Translator.emit (.set cond (← TranslateInst.RD inst))) tr := by
  have hrd := huses.writable inst.getRd
  exact .RS1 (.seq (.emit (huses.writable _)) (.RD (.seq (.emit hrd) (.RD (.emit hrd)))))

theorem mild_product (half : Operand) :
    Appends Mild (translateProduct inst half) tr :=
  .RS1 (.seq (.move writable_tmp1 _) (.RS2 (.seq (.emit trivial) (.RD (.move (huses.writable _) _)))))

theorem mild_lui : Appends Mild (translateLUI inst) tr :=
  .RD (.move (huses.writable _) _)

theorem mild_auipc : Appends Mild (translateAUIPC inst) tr :=
  .seq (.move writable_tmp1 _) (.OFFSET (.seq (.emit writable_tmp1) (.RD (.move (huses.writable _) _))))

theorem mild_addi : Appends Mild (translateADDI inst) tr := by
  have hrd := huses.writable inst.getRd
  refine .RD ?_
  split
  · exact .move hrd _
  · split
    · exact .RS1 (.moveVia hrd _)
    · exact mild_immType huses inst .add

theorem mild_add : Appends Mild (translateADD inst) tr := by
  have hrd := huses.writable inst.getRd
  have hreg : Appends Mild (translateRegType inst .add) tr :=
    mild_regType huses inst .add
  rw [translateADD]
  split
  · split
    · exact .RS1 (.RD (.seq (.moveVia hrd _) hreg))
    · exact .RS2 (.RD (.seq (.moveVia hrd _) hreg))
  · exact hreg

theorem mild_jal : Appends Mild (translateJAL inst) tr := by
  have hrd := huses.writable inst.getRd
  refine .OFFSET ?_
  split
  · exact .RD (.seq (.move writable_tmp1 _) (.seq (.move hrd _) (.seq (.emit hrd) (.emit writable_pc))))
  · exact .emit writable_pc

theorem mild_jalr : Appends Mild (translateJALR inst) tr := by
  have hrd := huses.writable inst.getRd
  refine .OFFSET (.seq (.emit writable_pc) (.seq (.move writable_tmp1 _) (.RD (.seq (.move hrd _) ?_))))
  exact .RS1 (.seq (.move writable_tmp1 _)
    (.seq (.emit writable_tmp1) (.seq (.emit writable_tmp1) (.move writable_pc _))))

end

section

variable {x y : Tr Unit} {tr : Translator}

theorem straight_emit {i : X86.Inst Callee} (h : i.falls = true) :
    Appends Straight (Translator.emit i) tr := ⟨X86.emit i, fun _ ↦ rfl, .emit h⟩

theorem Appends.forM {P : NativeCode → Prop} (hnil : P []) (happend : ∀ c d, P c → P d → P (c ++ d))
    (l : List Reg) {f : Reg → Tr Unit} (hf : ∀ r, Appends P (f r) tr) : Appends P (l.forM f) tr := by
  induction l with
  | nil => exact ⟨[], fun pre ↦ by rw [List.append_nil]; rfl, hnil⟩
  | cons r l ih => exact (hf r).append ih happend

/-- An instruction for a register that is in a host register. -/
theorem Appends.ifReg {P : NativeCode → Prop} (hnil : P []) (r : Reg) {i : Operand → X86.Inst Callee}
    (hi : P (X86.emit (i (tr.reg_mapping_ r)))) : Appends P (do
      let op := (← get).reg_mapping_ r
      if op.isReg then Translator.emit (i op)) tr := by
  have h : Appends P (if (tr.reg_mapping_ r).isReg then
      Translator.emit (i (tr.reg_mapping_ r)) else Pure.pure ()) tr := by
    split
    · exact ⟨X86.emit _, fun _ ↦ rfl, hi⟩
    · exact ⟨[], fun pre ↦ by rw [List.append_nil]; rfl, hnil⟩
  exact h

theorem straight_saveAllRegs : Appends Straight saveAllRegs tr :=
  .forM .nil (fun _ _ ↦ .append) _ fun r ↦ .ifReg .nil r (.emit rfl)

theorem straight_restoreAllRegs : Appends Straight restoreAllRegs tr :=
  .forM .nil (fun _ _ ↦ .append) _ fun r ↦ .ifReg .nil r (.emit rfl)

/-- The registers are popped into locations, none of which is `rdi`. -/
theorem mild_restoreAllRegs {a : Allocation} (h : tr.Allocated a) : Appends Mild restoreAllRegs tr := by
  refine .forM .nil (fun _ _ ↦ .append) _ fun r ↦ .ifReg .nil r (.emit ?_)
  change Writable (tr.reg_mapping_ r)
  rw [h.mapping]
  cases hl : a.loc r with
  | host g =>
    rintro rfl
    exact a.loc_ne_host (by decide) r hl
  | slot r' => exact writable_slot r'

/-- Code that calls a function is steady for want of a promise. -/
def Calls (c : NativeCode) : Prop := Straight c ∧ ∃ f, .inst (.call f) ∈ c

theorem Calls.steady {c : NativeCode} (h : Calls c) : Steady layout clobber c where
  straight := h.1
  calm hcall := by
    obtain ⟨f, hf⟩ := h.2
    exact absurd hf (hcall f)

theorem calls_before (hx : Appends Straight x tr) (hy : Appends Calls y tr) :
    Appends Calls (do x; y) tr := by
  refine hx.append hy fun c d hc hd ↦ ⟨hc.append hd.1, ?_⟩
  obtain ⟨f, hf⟩ := hd.2
  exact ⟨f, List.mem_append_right _ hf⟩

theorem calls_after (hx : Appends Calls x tr) (hy : Appends Straight y tr) :
    Appends Calls (do x; y) tr := by
  refine hx.append hy fun c d hc hd ↦ ⟨hc.1.append hd, ?_⟩
  obtain ⟨f, hf⟩ := hc.2
  exact ⟨f, List.mem_append_left _ hf⟩

theorem calls_call (f : Callee) : Appends Calls (Translator.emit (.call f)) tr := by
  refine ⟨X86.emit (.call f), fun _ ↦ rfl, .emit rfl, f, ?_⟩
  exact List.mem_singleton_self _

variable (inst : Inst) (T : AccessAs)

theorem calls_mmuLoad : Appends Calls (translateMMULoad inst T) tr :=
  calls_before straight_saveAllRegs (.RS1 (calls_before (straight_emit rfl)
    (calls_before (straight_emit rfl) (calls_after (calls_call _) straight_restoreAllRegs))))

theorem calls_mmuStore : Appends Calls (translateMMUStore inst T) tr :=
  calls_before straight_saveAllRegs (.RS1 (calls_before (straight_emit rfl)
    (calls_before (straight_emit rfl) (.RS2 (calls_before (straight_emit rfl)
      (calls_after (calls_call _) straight_restoreAllRegs))))))

end

/-- If the code of a template gets through, it ends in a machine with `Q`. -/
def Partly (env : Env Callee State Stop) (x : Tr Unit) (tr : Translator) (m : Machine State)
    (Q : Machine State → Prop) : Prop :=
  Appends (fun c ↦ ∀ m', (block env c).run m = .ok () m' → Q m') x tr

theorem Partly.emit {env : Env Callee State Stop} {tr : Translator} {i : X86.Inst Callee}
    (he : i.encodable = true) {m : Machine State} {Q : Machine State → Prop}
    (h : ∀ m', (exec env i).run m = .ok () m' → Q m') : Partly env (Translator.emit i) tr m Q := by
  refine ⟨X86.emit i, fun _ ↦ rfl, fun m' hm' ↦ ?_⟩
  rw [X86.emit, if_pos he] at hm'
  obtain ⟨u, m₁, hx, h₁⟩ := run_bind_eq_ok.mp hm'
  cases h₁
  exact h _ hx

/-- Code that gets through comes first. -/
theorem Emits.partly {env : Env Callee State Stop} {x y : Tr Unit} {tr : Translator}
    {m : Machine State} {Q : Machine State → Prop}
    (h : Emits env x tr m fun m₁ ↦ Partly env y tr m₁ Q) : Partly env (do x; y) tr m Q := by
  obtain ⟨c, m₁, hc, hrun, d, hd, hq⟩ := h
  refine ⟨c ++ d, fun pre ↦ ?_, fun m' hm' ↦ hq m' ?_⟩
  · rw [StateT.run_bind, hc pre]
    change y.run { tr with code_ := pre ++ c } = _
    rw [hd (pre ++ c), List.append_assoc]
  · rwa [block_append hrun] at hm'

/-- Straight code is steady if each of its runs is calm. -/
theorem Appends.steady {x : Tr Unit} {tr : Translator} (hx : Appends Straight x tr)
    (h : ∀ m, Ready layout m → Partly (env layout clobber) x tr m fun m' ↦
      Ready layout m' ∧ m'.world.executed_insts = m.world.executed_insts) :
    Appends (Steady layout clobber) x tr := by
  obtain ⟨c, hc, hs⟩ := hx
  refine ⟨c, hc, hs, fun _ m m' hrun ↦ ?_⟩
  have hm : Ready layout m → Ready layout m' ∧ m'.world.executed_insts = m.world.executed_insts := by
    intro hm
    obtain ⟨d, hd, hq⟩ := h m hm
    rw [appended_unique hc hd] at hrun
    exact hq m' hrun
  exact ⟨fun h ↦ (hm h).1, fun h ↦ (hm h).2⟩

theorem store_apart {addr : U64} (h : 152 ≤ (addr - layout.state).toNat) {w : ℕ} {v : BitVec w}
    {s s' : State} (hs : store layout addr v s = .ok s') : s'.executed_insts = s.executed_insts := by
  rw [store, show placeOf layout addr = some (.guest (addr - layout.mem).toNat) from
    if_neg (Nat.not_lt.mpr h)] at hs
  dsimp only at hs
  split at hs
  · cases hs
    rfl
  · cases hs

section

variable {a : Allocation} {tr : Translator} (huses : tr.Uses a) (inst : Inst) (T : AccessAs)

include huses

theorem steady_load {result : Operand → Tr Unit} {access : Operand → Operand → Tr Unit}
    (hresult : ∀ rd, Writable rd → Appends Mild (result rd) tr)
    (haccess : ∀ dst src, Writable dst → Appends Mild (access dst src) tr) :
    Appends (Steady layout clobber) (translateLoad inst T result access) tr := by
  have hrd := huses.writable inst.getRd
  cases hv : tr.isVirtualAddressing with
  | true =>
    have hcall : Appends Calls (do
        translateMMULoad inst T
        result (← TranslateInst.RD inst)) tr :=
      calls_after (calls_mmuLoad inst T)
        (.RD ((hresult _ hrd).mono fun _ h ↦ h.straight))
    refine (hcall.mono fun c hc ↦ hc.steady).congr_run fun pre ↦ ?_
    change (if tr.isVirtualAddressing = true then _ else _ : Tr Unit).run _ = _
    rw [if_pos hv]
  | false =>
    have hbare : Appends Mild (do
        translateMove TMP1 (← TranslateInst.RS1 inst)
        Translator.emit (.bin .add (.reg .rax 64) getMem)
        let rd ← TranslateInst.RD inst
        if rd.isReg then access rd (TranslateInst.guest inst (8 * T.bytes))
        else
          access TMP2 (TranslateInst.guest inst (8 * T.bytes))
          translateMove rd TMP2) tr := by
      refine .RS1 (.seq (.move writable_tmp1 _) (.seq (.emit writable_tmp1) (.RD ?_)))
      split
      · exact haccess _ _ hrd
      · exact .seq (haccess _ _ writable_tmp2) (.move hrd _)
    refine (hbare.mono fun c hc ↦ hc.steady).congr_run fun pre ↦ ?_
    change (if tr.isVirtualAddressing = true then _ else _ : Tr Unit).run _ = _
    rw [if_neg (by rw [hv]; exact Bool.false_ne_true)]

omit huses in
/-- The last instruction of a store, with the address without the displacement in `rax`. -/
theorem partly_store (hapart : layout.Apart) {m m₁ : Machine State} {v : U32} {src : Operand}
    (henc : (X86.Inst.bin (F := Callee) .mov (TranslateInst.guest inst (8 * T.bytes)) src).encodable = true)
    (hm : Ready layout m₁) (hi : m₁.world.executed_insts = m.world.executed_insts)
    (hrax : m₁.regs .rax = v.setWidth 64 + layout.mem) :
    Partly (env layout clobber) (translateMove (TranslateInst.guest inst (8 * T.bytes)) src) tr m₁
      fun m' ↦ Ready layout m' ∧ m'.world.executed_insts = m.world.executed_insts := by
  refine .emit henc fun m' hx ↦ ?_
  cases execBin_assigns (execBin_of_exec hx) with
  | none f => exact ⟨hm.withFlags f, hi⟩
  | @some w x m₂ h f =>
    change (store layout (m₁.regs .rax + IMM inst) x m₁.world).map _ = _ at h
    cases hs : store layout (m₁.regs .rax + IMM inst) x m₁.world with
    | error e =>
      rw [hs] at h
      cases h
    | ok s =>
      rw [hs] at h
      cases h
      rw [hrax] at hs
      exact ⟨hm.withFlags f, (store_apart (hapart v inst.getImm) hs).trans hi⟩

theorem steady_store (hapart : layout.Apart) :
    Appends (Steady layout clobber) (translateStore inst T) tr := by
  cases hv : tr.isVirtualAddressing with
  | true =>
    refine ((calls_mmuStore inst T).mono fun c hc ↦ hc.steady).congr_run fun pre ↦ ?_
    change (if tr.isVirtualAddressing = true then _ else _ : Tr Unit).run _ = _
    rw [if_pos hv]
  | false =>
    have hbare : Appends (Steady layout clobber) (do
        translateMove TMP1 (← TranslateInst.RS1 inst)
        Translator.emit (.bin .add (.reg .rax 64) getMem)
        let rs2 ← TranslateInst.RS2 inst
        if rs2.isReg then
          translateMove (TranslateInst.guest inst (8 * T.bytes)) (lowPart (8 * T.bytes) rs2)
        else
          translateMove TMP2 rs2
          translateMove (TranslateInst.guest inst (8 * T.bytes)) (lowPart (8 * T.bytes) TMP2)) tr := by
      have hmove : ∀ dst src, Appends Straight (translateMove dst src) tr := by
        intro dst src
        rw [translateMove]
        split
        · exact straight_emit rfl
        · exact straight_emit rfl
      refine .steady ?_ fun m hm ↦ ?_
      · refine .RS1 ((hmove _ _).append ((straight_emit rfl).append (.RS2 ?_) fun _ _ ↦ .append)
          fun _ _ ↦ .append)
        split
        · exact hmove _ _
        · exact (hmove _ _).append (hmove _ _) fun _ _ ↦ .append
      · refine .RS1 ?_
        rw [huses]
        refine Emits.partly (.move (l := .host .rax) hm (by decide) rfl fun f ↦ ?_)
        generalize valueOf m (a.src inst.getRs1) = v
        have hm₁ := (hm.put (l := .host .rax) (by decide) v).withFlags f
        have hi₁ : ((put m (.host .rax) v).withFlags f).world = m.world := rfl
        have hrax₁ : ((put m (.host .rax) v).withFlags f).regs .rax = v.setWidth 64 :=
          m.regs_set_self .rax le_rfl v
        generalize (put m (.host .rax) v).withFlags f = m₁ at hm₁ hi₁ hrax₁ ⊢
        obtain ⟨f', hadd⟩ := exec_add_mem clobber hm₁
        refine Emits.partly (.emit rfl hadd (.RS2 ?_))
        have hm₂ := (hm₁.set (by decide : Gp.rax ≠ .rdi) (m₁.regs .rax + layout.mem)).withFlags f'
        have hi₂ : ((m₁.set .rax (m₁.regs .rax + layout.mem)).withFlags f').world = m.world := hi₁
        have hrax₂ : ((m₁.set .rax (m₁.regs .rax + layout.mem)).withFlags f').regs .rax =
            v.setWidth 64 + layout.mem := by
          refine (m₁.regs_set_self .rax (w := 64) (by decide) _).trans ?_
          rw [hrax₁, BitVec.setWidth_eq]
        generalize (m₁.set .rax (m₁.regs .rax + layout.mem)).withFlags f' = m₂ at hm₂ hi₂ hrax₂ ⊢
        rw [huses]
        split
        · next hreg =>
          obtain ⟨g, hg⟩ := Src.of_isReg hreg
          rw [hg]
          exact partly_store inst T hapart rfl hm₂ (by rw [hi₂]) hrax₂
        · refine Emits.partly (.move (l := .host .rdx) hm₂ (by decide) rfl fun f'' ↦ ?_)
          generalize valueOf m₂ (a.src inst.getRs2) = w
          refine partly_store (v := v) inst T hapart rfl
            ((hm₂.put (l := .host .rdx) (by decide) _).withFlags f'') (by rw [← hi₂]; rfl) ?_
          exact (m₂.regs_set_of_ne (by decide : Gp.rax ≠ .rdx) w).trans hrax₂
    refine hbare.congr_run fun pre ↦ ?_
    change (if tr.isVirtualAddressing = true then _ else _ : Tr Unit).run _ = _
    rw [if_neg (by rw [hv]; exact Bool.false_ne_true)]

end

/-- The condition of a branch template. -/
def branchCond : TranslateFunc → Option Cond
  | .TranslateBEQ => some .e
  | .TranslateBNE => some .ne
  | .TranslateBLT => some .l
  | .TranslateBGE => some .ge
  | .TranslateBLTU => some .b
  | .TranslateBGEU => some .ae
  | _ => none

/-- The templates that reach the guest memory. -/
def accesses : TranslateFunc → Bool
  | .TranslateLB | .TranslateLH | .TranslateLW | .TranslateLBU | .TranslateLHU
  | .TranslateSB | .TranslateSH | .TranslateSW => true
  | _ => false

section

variable {a : Allocation} {tr : Translator} (huses : tr.Uses a) (inst : Inst) {func : TranslateFunc}

include huses

theorem mild_translate (hf : branchCond func = none) (ha : accesses func = false) :
    Appends Mild (func.translate inst) tr := by
  cases func with
  | TranslateLUI => exact mild_lui huses inst
  | TranslateAUIPC => exact mild_auipc huses inst
  | TranslateJAL => exact mild_jal huses inst
  | TranslateJALR => exact mild_jalr huses inst
  | TranslateADDI => exact mild_addi huses inst
  | TranslateSLTI => exact mild_setImm huses inst .l _
  | TranslateSLTIU => exact mild_setImm huses inst .b _
  | TranslateXORI | TranslateORI | TranslateANDI | TranslateSLLI | TranslateSRLI | TranslateSRAI =>
    exact mild_immType huses inst _
  | TranslateADD => exact mild_add huses inst
  | TranslateSUB | TranslateXOR | TranslateOR | TranslateAND => exact mild_regType huses inst _
  | TranslateSLL | TranslateSRL | TranslateSRA => exact mild_shift huses inst _
  | TranslateSLT | TranslateSLTU => exact mild_set huses inst _
  | TranslateMUL | TranslateMULH => exact mild_product huses inst _
  | TranslateBEQ | TranslateBNE | TranslateBLT | TranslateBGE | TranslateBLTU | TranslateBGEU =>
    cases hf
  | TranslateLB | TranslateLH | TranslateLW | TranslateLBU | TranslateLHU | TranslateSB
  | TranslateSH | TranslateSW => cases ha

/-- Every template but the branches emits straight code that keeps `rdi` and the instruction
count. -/
theorem steady_translate (hapart : layout.Apart) (hf : branchCond func = none) :
    Appends (Steady layout clobber) (func.translate inst) tr := by
  cases ha : accesses func with
  | false => exact (mild_translate huses inst hf ha).mono fun c hc ↦ hc.steady
  | true =>
    have hbin : ∀ id dst src, Writable dst → Appends Mild (Translator.emit (.bin id dst src)) tr :=
      fun id dst src hd ↦ .emit hd
    have hmove : ∀ dst src, Writable dst → Appends Mild (translateMove dst src) tr :=
      fun dst src hd ↦ .move hd src
    cases func with
    | TranslateLB | TranslateLH =>
      exact steady_load huses inst _ (fun rd ↦ hbin _ rd _) fun dst src ↦ hbin _ dst src
    | TranslateLBU | TranslateLHU =>
      exact steady_load huses inst _ (fun rd ↦ hmove rd _) fun dst src ↦ hbin _ dst src
    | TranslateLW => exact steady_load huses inst _ (fun rd ↦ hmove rd _) fun dst src ↦ hmove dst src
    | TranslateSB | TranslateSH | TranslateSW => exact steady_store huses inst _ hapart
    | _ => cases ha

end

end

end RiscvSim
