import RiscvSim.Locations
import RiscvSim.Rv32iStep

namespace RiscvSim

open Isa Ir X86 Results Translator Native TranslateInst

/-- The template appends code that takes the machine `m` to one with `Q`, and changes nothing
else of the translator. -/
def Emits (env : Env Callee State Stop) (x : Tr Unit) (tr : Translator) (m : Machine State)
    (Q : Machine State → Prop) : Prop :=
  ∃ c m', (∀ pre, x.run { tr with code_ := pre } = ((), { tr with code_ := pre ++ c })) ∧
    (block env c).run m = .ok () m' ∧ Q m'

/-- The code a template appends. -/
def emitted (x : Tr Unit) (tr : Translator) : NativeCode := (x.run { tr with code_ := [] }).2.code_

namespace Emits

variable {env : Env Callee State Stop} {x y : Tr Unit} {tr : Translator} {m : Machine State}
  {Q R : Machine State → Prop}

theorem run (h : Emits env x tr m Q) : ∃ m', (block env (emitted x tr)).run m = .ok () m' ∧ Q m' := by
  obtain ⟨c, m', hx, hrun, hq⟩ := h
  rw [emitted, hx []]
  exact ⟨m', hrun, hq⟩

theorem mono (h : Emits env x tr m Q) (hQ : ∀ m', Q m' → R m') : Emits env x tr m R := by
  obtain ⟨c, m', hx, hrun, hq⟩ := h
  exact ⟨c, m', hx, hrun, hQ m' hq⟩

theorem pure (h : Q m) : Emits env (Pure.pure ()) tr m Q :=
  ⟨[], m, fun pre ↦ by rw [List.append_nil]; rfl, rfl, h⟩

theorem seq (h : Emits env x tr m fun m' ↦ Emits env y tr m' Q) :
    Emits env (do x; y) tr m Q := by
  obtain ⟨c, m', hx, hrun, d, m'', hy, hrun', hq⟩ := h
  refine ⟨c ++ d, m'', fun pre ↦ ?_, ?_, hq⟩
  · rw [StateT.run_bind, hx pre]
    change y.run { tr with code_ := pre ++ c } = _
    rw [hy (pre ++ c), List.append_assoc]
  · rw [block_append hrun, hrun']

theorem emit {i : X86.Inst Callee} {m' : Machine State} (he : i.encodable = true)
    (hi : (exec env i).run m = .ok () m') (h : Q m') : Emits env (Translator.emit i) tr m Q := by
  refine ⟨[.inst i], m', fun pre ↦ ?_, ?_, h⟩
  · change ((), { tr with code_ := pre ++ X86.emit i }) = _
    rw [X86.emit, if_pos he]
  · rw [block, run_bind_of_ok hi]
    rfl

/-- An instruction without an encoding adds no code. -/
theorem emit_none {i : X86.Inst Callee} (he : i.encodable = false) (h : Q m) :
    Emits env (Translator.emit i) tr m Q := by
  refine ⟨[], m, fun pre ↦ ?_, rfl, h⟩
  change ((), { tr with code_ := pre ++ X86.emit i }) = _
  rw [X86.emit, he]
  rfl

theorem RS1 {inst : Inst} {k : Operand → Tr Unit} (h : Emits env (k (tr.getReg inst.getRs1)) tr m Q) :
    Emits env (TranslateInst.RS1 inst >>= k) tr m Q := h

theorem RS2 {inst : Inst} {k : Operand → Tr Unit} (h : Emits env (k (tr.getReg inst.getRs2)) tr m Q) :
    Emits env (TranslateInst.RS2 inst >>= k) tr m Q := h

theorem RD {inst : Inst} {k : Operand → Tr Unit} (h : Emits env (k (tr.getReg inst.getRd)) tr m Q) :
    Emits env (TranslateInst.RD inst >>= k) tr m Q := h

theorem congr_run (hxy : ∀ pre, x.run { tr with code_ := pre } = y.run { tr with code_ := pre })
    (h : Emits env y tr m Q) : Emits env x tr m Q := by
  obtain ⟨c, m', hy, hrun, hq⟩ := h
  exact ⟨c, m', fun pre ↦ (hxy pre).trans (hy pre), hrun, hq⟩

end Emits

section

variable {layout : Layout} {clobber : Clobber} {m : Machine State} (hm : Ready layout m)

include hm

theorem exec_mov {l : Loc} (hl : l.Usable) (s : Src) (hs : (l.op.isMem && s.op.isMem) = false) :
    (exec (env layout clobber) (.bin .mov l.op s.op)).run m = .ok () (put m l (valueOf m s)) := by
  have hw : binWidth l.op s.op = some 32 := by rw [binWidth_op, hs, if_neg Bool.false_ne_true]
  exact X86.exec_mov hw (value_op hm s) (assign_op hm hl _)

theorem exec_arith {id : Id} (hid : id ∈ [Id.add, .sub, .and, .or, .xor]) {l : Loc} (hl : l.Usable)
    (s : Src) (hs : (l.op.isMem && s.op.isMem) = false) :
    (exec (env layout clobber) (.bin id l.op s.op)).run m =
      .ok () ((put m l (arith id (look m l) (valueOf m s)).1).withFlags
        (some (arith id (look m l) (valueOf m s)).2)) := by
  apply exec_bin
  have hdst : m.value (env layout clobber) 32 l.op = .ok (look m l) := value_op hm (.loc l)
  simp only [List.mem_cons, List.not_mem_nil, or_false] at hid
  rcases hid with rfl | rfl | rfl | rfl | rfl
  all_goals
    dsimp only [execBin]
    rw [binWidth_op, hs, if_neg Bool.false_ne_true]
    dsimp only
    rw [hdst, value_op hm]
    change (do
      return { (← m.assign _ _ l.op) with flags := _ } : Except Stop (Machine State)) = _
    rw [assign_op hm hl]
    rfl

theorem exec_cmp (l : Loc) (s : Src) (hs : (l.op.isMem && s.op.isMem) = false) :
    (exec (env layout clobber) (.bin .cmp l.op s.op)).run m =
      .ok () (m.withFlags (some (arith .cmp (look m l) (valueOf m s)).2)) := by
  apply exec_bin
  have hdst : m.value (env layout clobber) 32 l.op = .ok (look m l) := value_op hm (.loc l)
  dsimp only [execBin]
  rw [binWidth_op, hs, if_neg Bool.false_ne_true]
  dsimp only
  rw [hdst, value_op hm]
  rfl

end

theorem mem_and_mem_of_reg {l : Loc} {s : Src} (h : (l.op.isReg || s.op.isReg) = true) :
    (l.op.isMem && s.op.isMem) = false := by
  cases l with
  | host g => rfl
  | slot r =>
    cases s with
    | imm v => rfl
    | loc l' =>
      cases l' with
      | host g => rfl
      | slot r' => cases h

theorem mem_of_arith {id : Id} (hid : id ∈ [Id.add, .sub, .and, .or, .xor]) :
    id ∈ [Id.mov, .add, .sub, .and, .or, .xor, .cmp] := by
  simp only [List.mem_cons] at hid ⊢
  tauto

theorem encodable_bin {id : Id} (hid : id ∈ [Id.mov, .add, .sub, .and, .or, .xor, .cmp]) (l : Loc)
    (s : Src) : (X86.Inst.bin (F := Callee) id l.op s.op).encodable = !(l.op.isMem && s.op.isMem) := by
  have hw : (X86.Inst.bin (F := Callee) id l.op s.op).encodable = (binWidth l.op s.op).isSome := by
    simp only [List.mem_cons, List.not_mem_nil, or_false] at hid
    rcases hid with rfl | rfl | rfl | rfl | rfl | rfl | rfl <;> rfl
  rw [hw, binWidth_op]
  cases l.op.isMem && s.op.isMem <;> rfl

namespace Emits

variable {layout : Layout} {clobber : Clobber} {tr : Translator} {m : Machine State}
  {Q : Machine State → Prop}

theorem arith (hm : Ready layout m) {id : Id} (hid : id ∈ [Id.add, .sub, .and, .or, .xor]) {l : Loc}
    (hl : l.Usable) {s : Src} (hs : (l.op.isMem && s.op.isMem) = false)
    (h : Q ((put m l (X86.arith id (look m l) (valueOf m s)).1).withFlags
      (some (X86.arith id (look m l) (valueOf m s)).2))) :
    Emits (env layout clobber) (Translator.emit (.bin id l.op s.op)) tr m Q := by
  refine emit ?_ (exec_arith hm hid hl s hs) h
  rw [encodable_bin (mem_of_arith hid) l s, hs]
  rfl

theorem cmp (hm : Ready layout m) {l : Loc} {s : Src} (hs : (l.op.isMem && s.op.isMem) = false)
    (h : Q (m.withFlags (some (X86.arith .cmp (look m l) (valueOf m s)).2))) :
    Emits (env layout clobber) (Translator.emit (.bin .cmp l.op s.op)) tr m Q := by
  refine emit ?_ (exec_cmp hm l s hs) h
  rw [encodable_bin (by decide) l s, hs]
  rfl

theorem mov (hm : Ready layout m) {l : Loc} (hl : l.Usable) {s : Src}
    (hs : (l.op.isMem && s.op.isMem) = false) (h : Q (put m l (valueOf m s))) :
    Emits (env layout clobber) (Translator.emit (.bin .mov l.op s.op)) tr m Q := by
  refine emit ?_ (exec_mov hm hl s hs) h
  rw [encodable_bin (by decide) l s, hs]
  rfl

/-- A move may lose the flags: a zero comes from `xor`. -/
theorem move (hm : Ready layout m) {l : Loc} (hl : l.Usable) {s : Src}
    (hs : (l.op.isMem && s.op.isMem) = false)
    (h : ∀ f, Q ((put m l (valueOf m s)).withFlags f)) :
    Emits (env layout clobber) (translateMove l.op s.op) tr m Q := by
  rw [translateMove]
  split
  · next hx =>
    obtain ⟨hr, hz⟩ := Bool.and_eq_true_iff.mp hx
    have hmem : (l.op.isMem && (Src.loc l).op.isMem) = false := by
      cases l with
      | host g => rfl
      | slot r => cases hr
    have hv : valueOf m s = 0 := by
      cases s with
      | imm v =>
        cases beq_iff_eq.mp hz
        rfl
      | loc l' => cases l' <;> cases beq_iff_eq.mp hz
    have hid : Id.xor ∈ [Id.add, .sub, .and, .or, .xor] := by decide
    refine arith hm (s := .loc l) hid hl hmem ?_
    have hxor : (X86.arith .xor (look m l) (look m l)).1 = 0 := BitVec.xor_self
    rw [valueOf, hxor, ← hv]
    exact h _
  · exact mov hm hl hs (h (put m l (valueOf m s)).flags)

theorem move_imm {v : U64} {src : Operand} (h : Q m) :
    Emits (env layout clobber) (translateMove (.imm v) src) tr m Q := by
  rw [translateMove, if_neg (by simp [Operand.isReg])]
  exact emit_none rfl h

end Emits

/-- The code of a template leaves the guest as the interpreter does. -/
def Agrees (layout : Layout) (clobber : Clobber) (a : Allocation) (tr : Translator) (inst : Inst)
    (offset : U32) (m : Machine State) : Prop :=
  ∃ m', (block (env layout clobber) (emitted inst.translate tr)).run m = .ok () m' ∧
    (inst.func_.exec inst offset).run (a.guest m) = .ok .nextInst (a.guest m')

section

variable {layout : Layout} {clobber : Clobber} {a : Allocation} {tr : Translator} {inst : Inst}
  {m m₀ : Machine State} {R : Regs}

theorem agrees_iff {offset v w : U32}
    (htpl : Emits (env layout clobber) inst.translate tr m fun m' ↦
      a.Holds layout m m' ((a.regs m).set inst.getRd v))
    (hexec : (inst.func_.exec inst offset).run (a.guest m) =
      .ok .nextInst { a.guest m with regs := (a.regs m).set inst.getRd w }) :
    Agrees layout clobber a tr inst offset m ↔ inst.getRd = 0 ∨ v = w := by
  obtain ⟨m', hrun, hm'⟩ := htpl.run
  constructor
  · rintro ⟨m'', hrun', hexec'⟩
    rw [hrun] at hrun'
    cases hrun'
    rw [hexec, hm'.guest] at hexec'
    by_cases hrd : inst.getRd = 0
    · exact .inl hrd
    · have hstate := (EStateM.Result.ok.inj hexec').2
      have hval := congrArg (fun s : State ↦ s.regs.get inst.getRd) hstate
      simp only [Regs.get_set_self _ hrd] at hval
      exact .inr hval.symm
  · intro h
    refine ⟨m', hrun, ?_⟩
    rw [hexec, hm'.guest]
    rcases h with h | h
    · rw [h, Regs.set_zero, Regs.set_zero]
    · rw [h]

theorem run_firstOperand (pre : NativeCode) :
    (TranslateInst.firstOperand inst).run { tr with code_ := pre } =
      (if ((tr.getReg inst.getRs1).isMem || (tr.getReg inst.getRs1).isImm) = true then
        translateMove TMP1 (tr.getReg inst.getRs1) >>= fun _ ↦ pure TMP1
      else pure (tr.getReg inst.getRs1) : Tr Operand).run { tr with code_ := pre } := rfl

namespace Emits

theorem toTmp (h : a.Holds layout m₀ m R) (s : Src) {Q : Machine State → Prop}
    (hQ : ∀ m', a.Holds layout m₀ m' R → look m' (.host .rax) = valueOf m s → Q m') :
    Emits (env layout clobber) (translateMove TMP1 s.op) tr m Q := by
  refine move (l := .host .rax) h.ready (by decide) rfl fun f ↦ hQ _ ?_ ?_
  · exact (h.scratch (g := .rax) (by decide) (by decide) _).withFlags f
  · rw [look_withFlags, look_put_self _ (by decide)]

theorem onTmp (h : a.Holds layout m₀ m R) {id : Id} (hid : id ∈ [Id.add, .sub, .and, .or, .xor])
    (s : Src) {Q : Machine State → Prop}
    (hQ : ∀ m', a.Holds layout m₀ m' R →
      look m' (.host .rax) = (X86.arith id (look m (.host .rax)) (valueOf m s)).1 → Q m') :
    Emits (env layout clobber) (Translator.emit (.bin id TMP1 s.op)) tr m Q := by
  refine arith (l := .host .rax) h.ready hid (by decide) rfl (hQ _ ?_ ?_)
  · exact (h.scratch (g := .rax) (by decide) (by decide) _).withFlags _
  · rw [look_withFlags, look_put_self _ (by decide)]

theorem fromTmp {g : Gp} (h : a.Holds layout m₀ m R) {r : Reg} (hr : r ≠ 0) {v : U32}
    (hv : look m (.host g) = v) {Q : Machine State → Prop}
    (hQ : ∀ m', a.Holds layout m₀ m' (R.set r v) → Q m') :
    Emits (env layout clobber) (translateMove (a.loc r).op (Loc.host g).op) tr m Q := by
  refine move (s := .loc (.host g)) h.ready (a.usable hr) (Bool.and_false _) fun f ↦ hQ _ ?_
  rw [valueOf, hv]
  exact (h.put hr v).withFlags f

/-- The move that goes through a temporary when it has to. -/
theorem moveVia (h : a.Holds layout m₀ m R) {r : Reg} (hr : r ≠ 0) {s : Src}
    {Q : Machine State → Prop} (hQ : ∀ m', a.Holds layout m₀ m' (R.set r (valueOf m s)) → Q m') :
    Emits (env layout clobber) (TranslateInst.moveVia (a.loc r).op s.op) tr m Q := by
  rw [TranslateInst.moveVia]
  split
  · next hreg =>
    exact move h.ready (a.usable hr) (mem_and_mem_of_reg hreg) fun f ↦
      hQ _ ((h.put hr _).withFlags f)
  · exact .seq (toTmp h s fun m' h' hv ↦ fromTmp h' hr hv hQ)

/-- The operand a comparison starts from is in a register. -/
theorem firstOperand (huses : tr.Uses a) (h : a.Holds layout m₀ m R) {k : Operand → Tr Unit}
    {Q : Machine State → Prop}
    (hk : ∀ g m', a.Holds layout m₀ m' R → look m' (.host g) = R.get inst.getRs1 →
      Emits (env layout clobber) (k (Loc.host g).op) tr m' Q) :
    Emits (env layout clobber) (TranslateInst.firstOperand inst >>= k) tr m Q := by
  have hv := h.value inst.getRs1
  by_cases hc : ((tr.getReg inst.getRs1).isMem || (tr.getReg inst.getRs1).isImm) = true
  · have hcopy : Emits (env layout clobber)
        (translateMove (Loc.host .rax).op (a.src inst.getRs1).op >>= fun _ ↦ k (Loc.host .rax).op)
        tr m Q := by
      exact .seq (toTmp h _ fun m' h' hv' ↦ hk .rax m' h' (hv'.trans hv))
    refine congr_run (fun pre ↦ ?_) hcopy
    rw [StateT.run_bind, run_firstOperand, if_pos hc, huses]
    rfl
  · have hreg : ∃ g, tr.getReg inst.getRs1 = (Loc.host g).op := by
      rw [huses] at hc ⊢
      cases hs : a.src inst.getRs1 with
      | imm v =>
        rw [hs] at hc
        exact absurd rfl hc
      | loc l =>
        cases l with
        | host g => exact ⟨g, rfl⟩
        | slot r =>
          rw [hs] at hc
          exact absurd rfl hc
    obtain ⟨g, hg⟩ := hreg
    have hsrc : a.src inst.getRs1 = .loc (.host g) := by
      rw [huses] at hg
      cases hs : a.src inst.getRs1 with
      | imm v =>
        rw [hs] at hg
        cases hg
      | loc l =>
        rw [hs] at hg
        rw [Loc.op_inj.mp hg]
    rw [hsrc] at hv
    refine congr_run (fun pre ↦ ?_) (hk g m h hv)
    rw [StateT.run_bind, run_firstOperand, if_neg hc, hg]
    rfl

theorem moveVia_imm (hm : Ready layout m) {v : U64} {s : Src} {Q : Machine State → Prop}
    (hs : s.op.isReg = true → Q m) (hvia : ∀ f, Q ((put m (.host .rax) (valueOf m s)).withFlags f)) :
    Emits (env layout clobber) (TranslateInst.moveVia (.imm v) s.op) tr m Q := by
  rw [TranslateInst.moveVia]
  split
  · next hreg => exact move_imm (hs hreg)
  · exact .seq (move (l := .host .rax) hm (by decide) rfl fun f ↦ move_imm (hvia f))

end Emits

end

/-- Native code is entered with the guest registers in their slots. -/
def atEntry (R : Regs) : Machine State :=
  start ⟨0, 0⟩ (fun _ ↦ 0) { onePage (fun _ ↦ 0) (.new 1) with regs := R }

theorem ready_atEntry (R : Regs) : Ready ⟨0, 0⟩ (atEntry R) := rfl

end RiscvSim
