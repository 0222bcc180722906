import RiscvSim.Templates

namespace RiscvSim

open Isa Ir X86 Results Translator Native TranslateInst

/-- The template names no memory but members of `State`. -/
def Local (x : Tr Unit) (tr : Translator) : Prop :=
  ∃ c, (∀ pre, x.run { tr with code_ := pre } = ((), { tr with code_ := pre ++ c })) ∧
    ∀ item ∈ c, item.outside .rdi = []

/-- The memory the code of a template gets at outside `State`. -/
def Reaches (env : Env Callee State Stop) (x : Tr Unit) (tr : Translator) (m : Machine State)
    (l : List (U64 × ℕ)) : Prop :=
  ∃ c, (∀ pre, x.run { tr with code_ := pre } = ((), { tr with code_ := pre ++ c })) ∧
    reached env .rdi c m = l

section

variable {env : Env Callee State Stop} {x y : Tr Unit} {tr : Translator} {m : Machine State}
  {l : List (U64 × ℕ)}

theorem appended_unique {c d : NativeCode}
    (hc : ∀ pre, x.run { tr with code_ := pre } = ((), { tr with code_ := pre ++ c }))
    (hd : ∀ pre, x.run { tr with code_ := pre } = ((), { tr with code_ := pre ++ d })) : c = d := by
  have h : [] ++ c = [] ++ d :=
    congrArg (fun r : Unit × Translator ↦ r.2.code_) ((hc []).symm.trans (hd []))
  simpa using h

namespace Local

theorem emit {i : X86.Inst Callee} (h : (Item.inst i).outside .rdi = []) :
    Local (Translator.emit i) tr := by
  refine ⟨X86.emit i, fun pre ↦ rfl, fun item hi ↦ ?_⟩
  rw [X86.emit] at hi
  split at hi
  · rw [List.mem_singleton.mp hi]
    exact h
  · cases hi

theorem move {dst src : Operand} (hd : dst.outside .rdi = none) (hs : src.outside .rdi = none) :
    Local (translateMove dst src) tr := by
  rw [translateMove]
  split
  · exact emit (by simp [Item.outside, X86.Inst.operands, hd])
  · exact emit (by simp [Item.outside, X86.Inst.operands, hd, hs])

theorem reaches (h : Local x tr) : Reaches env x tr m [] := by
  obtain ⟨c, hx, hc⟩ := h
  exact ⟨c, hx, reached_of_outside hc m⟩

end Local

namespace Reaches

theorem emitted (h : Reaches env x tr m l) : reached env .rdi (emitted x tr) m = l := by
  obtain ⟨c, hx, hc⟩ := h
  rw [RiscvSim.emitted, hx []]
  exact hc

theorem seq (hx : Local x tr) (h : Emits env x tr m fun m' ↦ Reaches env y tr m' l) :
    Reaches env (do x; y) tr m l := by
  obtain ⟨c, m', hc, hrun, d, hd, hl⟩ := h
  obtain ⟨c', hc', hout⟩ := hx
  refine ⟨c ++ d, fun pre ↦ ?_, ?_⟩
  · rw [StateT.run_bind, hc pre]
    change y.run { tr with code_ := pre ++ c } = _
    rw [hd (pre ++ c), List.append_assoc]
  · rw [reached_append hrun, hl, appended_unique hc hc', reached_of_outside hout, List.nil_append]

/-- One instruction with a memory operand, and code that stays in `State` after it. -/
theorem access {i : X86.Inst Callee} (he : i.encodable = true) {a : X86.Mem}
    (ha : (Item.inst i).outside .rdi = [a]) (hy : Local y tr) :
    Reaches env (do Translator.emit i; y) tr m [(m.addr a, a.width / 8)] := by
  obtain ⟨d, hd, hout⟩ := hy
  refine ⟨.inst i :: d, fun pre ↦ ?_, ?_⟩
  · rw [StateT.run_bind]
    change y.run { tr with code_ := pre ++ X86.emit i } = _
    rw [hd, X86.emit, if_pos he, List.append_assoc]
    rfl
  · rw [reached, ha]
    cases (exec env i).run m with
    | ok u m' => exact congrArg _ (reached_of_outside hout m')
    | error e m' => rfl

theorem last {i : X86.Inst Callee} (he : i.encodable = true) {a : X86.Mem}
    (ha : (Item.inst i).outside .rdi = [a]) :
    Reaches env (Translator.emit i) tr m [(m.addr a, a.width / 8)] := by
  refine ⟨[.inst i], fun pre ↦ ?_, ?_⟩
  · change ((), { tr with code_ := pre ++ X86.emit i }) = _
    rw [X86.emit, if_pos he]
  · rw [reached, ha]
    cases (exec env i).run m <;> rfl

theorem congr_run (hxy : ∀ pre, x.run { tr with code_ := pre } = y.run { tr with code_ := pre })
    (h : Reaches env y tr m l) : Reaches env x tr m l := by
  obtain ⟨c, hy, hl⟩ := h
  exact ⟨c, fun pre ↦ (hxy pre).trans (hy pre), hl⟩

theorem RS1 {inst : Inst} {k : Operand → Tr Unit} (h : Reaches env (k (tr.getReg inst.getRs1)) tr m l) :
    Reaches env (TranslateInst.RS1 inst >>= k) tr m l := h

theorem RS2 {inst : Inst} {k : Operand → Tr Unit} (h : Reaches env (k (tr.getReg inst.getRs2)) tr m l) :
    Reaches env (TranslateInst.RS2 inst >>= k) tr m l := h

theorem RD {inst : Inst} {k : Operand → Tr Unit} (h : Reaches env (k (tr.getReg inst.getRd)) tr m l) :
    Reaches env (TranslateInst.RD inst >>= k) tr m l := h

end Reaches

end

theorem translateMove_of_mem (dst : Operand) (a : X86.Mem) :
    translateMove dst (.mem a) = Translator.emit (.bin .mov dst (.mem a)) := by
  cases dst <;> rfl

theorem Loc.outside_op (l : Loc) : l.op.outside .rdi = none := by cases l <;> rfl

theorem Src.outside_op (s : Src) : s.op.outside .rdi = none := by
  cases s with
  | imm v => rfl
  | loc l => exact l.outside_op

section

variable {layout : Layout} {clobber : Clobber} {a : Allocation} {tr : Translator} {inst : Inst}
  {m : Machine State}

theorem exec_add_mem (clobber : Clobber) (hm : Ready layout m) : ∃ f,
    (exec (env layout clobber) (.bin .add (.reg .rax 64) getMem)).run m =
      .ok () ((m.set .rax (m.regs .rax + layout.mem)).withFlags f) := by
  have hval : m.value (env layout clobber) 64 getMem = .ok layout.mem := by
    change load layout (m.regs .rdi + offsetofMem) 64 m.world = _
    rw [hm, load, placeOf_state (by decide)]
    exact congrArg Except.ok (BitVec.setWidth_eq _)
  have hacc : m.get .rax 64 = m.regs .rax := BitVec.setWidth_eq _
  refine ⟨some (arith .add (m.regs .rax) layout.mem).2, exec_bin ?_⟩
  change (do
    let b ← m.value (env layout clobber) 64 getMem
    return { m.set .rax (arith .add (m.get .rax 64) b).1 with
      flags := some (arith .add (m.get .rax 64) b).2 } : Except Stop (Machine State)) = _
  rw [hval, hacc]
  rfl

variable (inst) in
/-- The first two instructions put the address without the displacement into `rax`. -/
theorem Emits.base (clobber : Clobber) (hm : Ready layout m) (huses : tr.Uses a) :
    Emits (env layout clobber) (translateMove TMP1 (tr.getReg inst.getRs1)) tr m fun m₁ ↦
      Emits (env layout clobber) (Translator.emit (.bin .add (.reg .rax 64) getMem)) tr m₁ fun m' ↦
        a.Holds layout m m' (a.regs m) ∧
          m'.regs .rax = ((a.regs m).get inst.getRs1).setWidth 64 + layout.mem := by
  have hrefl := Allocation.Holds.refl (a := a) hm
  have hv := hrefl.value inst.getRs1
  rw [huses]
  refine .move (l := .host .rax) hm (by decide) rfl fun f ↦ ?_
  have ht := (hrefl.scratch (g := .rax) (by decide) (by decide)
    (valueOf m (a.src inst.getRs1))).withFlags f
  have hacc : ((put m (.host .rax) (valueOf m (a.src inst.getRs1))).withFlags f).regs .rax =
      ((a.regs m).get inst.getRs1).setWidth 64 := by
    rw [hv]
    exact m.regs_set_self .rax le_rfl _
  generalize (put m (.host .rax) (valueOf m (a.src inst.getRs1))).withFlags f = m₁ at ht hacc
  obtain ⟨f', hf'⟩ := exec_add_mem clobber ht.ready
  refine .emit rfl hf' ⟨?_, ?_⟩
  · exact (ht.set (g := .rax) (by decide) (by decide) _).withFlags f'
  · refine (m₁.regs_set_self .rax (w := 64) (by decide) (m₁.regs .rax + layout.mem)).trans ?_
    rw [hacc, BitVec.setWidth_eq]

theorem Reaches.based (hm : Ready layout m) (huses : tr.Uses a) {k : Tr Unit} {l : List (U64 × ℕ)}
    (h : ∀ m', Ready layout m' →
      m'.regs .rax = ((a.regs m).get inst.getRs1).setWidth 64 + layout.mem →
      (∀ r, valueOf m' (a.src r) = (a.regs m).get r) → Reaches (env layout clobber) k tr m' l) :
    Reaches (env layout clobber) (do
      translateMove TMP1 (← TranslateInst.RS1 inst)
      Translator.emit (.bin .add (.reg .rax 64) getMem)
      k) tr m l := by
  have hbase := Emits.base inst clobber hm huses
  refine RS1 (seq ?_ (hbase.mono fun m₁ h₁ ↦ seq (Local.emit rfl) (h₁.mono fun m' h' ↦ ?_)))
  · rw [huses]
    exact Local.move rfl (Src.outside_op _)
  · exact h m' h'.1.ready h'.2 h'.1.value

theorem addr_guest {T : AccessAs} {v : U64} (h : m.regs .rax = v) :
    (m.addr ⟨.rax, IMM inst, 8 * T.bytes⟩, 8 * T.bytes / 8) = (v + IMM inst, T.bytes) := by
  rw [Machine.addr, h, Nat.mul_div_cancel_left _ (by decide)]

variable (hm : Ready layout m) (huses : tr.Uses a) (hv : tr.isVirtualAddressing = false)

include hm huses hv

theorem load_reaches {T : AccessAs} {result : Operand → Tr Unit} {access : Operand → Operand → Tr Unit}
    {id : Id} (hacc : ∀ dst, access dst (TranslateInst.guest inst (8 * T.bytes)) =
      Translator.emit (.bin id dst (TranslateInst.guest inst (8 * T.bytes))))
    (henc : ∀ g, (X86.Inst.bin (F := Callee) id (.reg g 32)
      (TranslateInst.guest inst (8 * T.bytes))).encodable = true) :
    Reaches (env layout clobber) (translateLoad inst T result access) tr m
      [(((a.regs m).get inst.getRs1).setWidth 64 + layout.mem + IMM inst, T.bytes)] := by
  have hbase : Reaches (env layout clobber) (do
      translateMove TMP1 (← TranslateInst.RS1 inst)
      Translator.emit (.bin .add (.reg .rax 64) getMem)
      let rd ← TranslateInst.RD inst
      if rd.isReg then access rd (TranslateInst.guest inst (8 * T.bytes))
      else
        access TMP2 (TranslateInst.guest inst (8 * T.bytes))
        translateMove rd TMP2) tr m
      [(((a.regs m).get inst.getRs1).setWidth 64 + layout.mem + IMM inst, T.bytes)] := by
    refine .based hm huses fun m' hm' hrax _ ↦ .RD ?_
    rw [← addr_guest hrax, huses]
    split
    · next hreg =>
      obtain ⟨g, hg⟩ := Src.of_isReg hreg
      rw [hacc, hg]
      exact .last (henc g) rfl
    · rw [hacc]
      exact .access (henc .rdx) rfl (.move (Src.outside_op _) rfl)
  refine hbase.congr_run fun pre ↦ ?_
  change (if tr.isVirtualAddressing = true then _ else _ : Tr Unit).run _ = _
  rw [if_neg (by rw [hv]; exact Bool.false_ne_true)]

theorem store_reaches (T : AccessAs) :
    Reaches (env layout clobber) (translateStore inst T) tr m
      [(((a.regs m).get inst.getRs1).setWidth 64 + layout.mem + IMM inst, T.bytes)] := by
  have hbase : Reaches (env layout clobber) (do
      translateMove TMP1 (← TranslateInst.RS1 inst)
      Translator.emit (.bin .add (.reg .rax 64) getMem)
      let rs2 ← TranslateInst.RS2 inst
      if rs2.isReg then
        translateMove (TranslateInst.guest inst (8 * T.bytes)) (lowPart (8 * T.bytes) rs2)
      else
        translateMove TMP2 rs2
        translateMove (TranslateInst.guest inst (8 * T.bytes)) (lowPart (8 * T.bytes) TMP2)) tr m
      [(((a.regs m).get inst.getRs1).setWidth 64 + layout.mem + IMM inst, T.bytes)] := by
    refine .based hm huses fun m' hm' hrax _ ↦ .RS2 ?_
    rw [huses]
    split
    · next hreg =>
      obtain ⟨g, hg⟩ := Src.of_isReg hreg
      rw [hg, ← addr_guest hrax]
      exact .last rfl rfl
    · refine .seq (.move rfl (Src.outside_op _)) (.move (l := .host .rdx) hm' (by decide) rfl fun f ↦ ?_)
      rw [← addr_guest ((m'.regs_set_of_ne (r := .rdx) (by decide) _).trans hrax)]
      exact .last rfl rfl
  refine hbase.congr_run fun pre ↦ ?_
  change (if tr.isVirtualAddressing = true then _ else _ : Tr Unit).run _ = _
  rw [if_neg (by rw [hv]; exact Bool.false_ne_true)]

end

def memTypes : List Cmd := [.LB, .LH, .LW, .LBU, .LHU, .SB, .SH, .SW]

def accessOf : Cmd → AccessAs
  | .LB => .int8_t
  | .LH => .int16_t
  | .LW => .int32_t
  | .LBU | .SB => .uint8_t
  | .LHU | .SH => .uint16_t
  | _ => .uint32_t

section

variable {s : State} (inst : Inst) (hv : s.mmu.isVirtualAddressing = false) {n : ℕ}

include hv

theorem load_out (extend : BitVec (8 * n) → U32)
    (h : s.mmu.pmem_size_ ≤ (s.regs.get inst.getRs1 + inst.getImm).toNat + n) :
    (ExecInst.load inst n extend).run s = .error (.simException "Address is out of memory") s := by
  have hr : (State.read n (s.regs.get inst.getRs1 + inst.getImm)).run s =
      .error (.simException "Address is out of memory") s := by
    rw [read_bare hv, MMU.getMemPtr_setWidth, if_pos h]
  change (State.read n (s.regs.get inst.getRs1 + inst.getImm) >>= _).run s = _
  rw [run_bind_of_error hr]

theorem store_out (h : s.mmu.pmem_size_ ≤ (s.regs.get inst.getRs1 + inst.getImm).toNat + n) :
    (ExecInst.store inst n).run s = .error (.simException "Address is out of memory") s := by
  have hw := write_bare hv (s.regs.get inst.getRs1 + inst.getImm)
    ((s.regs.get inst.getRs2).setWidth (8 * n))
  rw [MMU.getMemPtr_setWidth, if_pos h] at hw
  rw [store_eq, run_bind_of_error hw]

end

section

variable {inst : Inst} (hcmd : inst.getCmd ∈ memTypes) (offset : U32) {s : State}
  (hv : s.mmu.isVirtualAddressing = false)

include hcmd hv

theorem exec_memType_out (h : s.mmu.pmem_size_ ≤
    (s.regs.get inst.getRs1 + inst.getImm).toNat + (accessOf inst.getCmd).bytes) :
    (inst.func_.exec inst offset).run s = .error (.simException "Address is out of memory") s := by
  obtain ⟨imm, rs1, rs2, rd, c, hc⟩ := inst
  simp only [memTypes, Inst.getCmd, List.mem_cons, List.not_mem_nil, or_false] at hcmd
  rcases hcmd with rfl | rfl | rfl | rfl | rfl | rfl | rfl | rfl
  · exact load_out _ hv _ h
  · exact load_out _ hv _ h
  · exact load_out _ hv _ h
  · exact load_out _ hv _ h
  · exact load_out _ hv _ h
  · exact store_out _ hv h
  · exact store_out _ hv h
  · exact store_out _ hv h

theorem exec_memType_in (h :
    (s.regs.get inst.getRs1 + inst.getImm).toNat + (accessOf inst.getCmd).bytes < s.mmu.pmem_size_) :
    ∃ s', (inst.func_.exec inst offset).run s = .ok .nextInst s' := by
  obtain ⟨imm, rs1, rs2, rd, c, hc⟩ := inst
  simp only [memTypes, Inst.getCmd, List.mem_cons, List.not_mem_nil, or_false] at hcmd
  rcases hcmd with rfl | rfl | rfl | rfl | rfl | rfl | rfl | rfl
  · exact ⟨_, load_run _ hv _ h⟩
  · exact ⟨_, load_run _ hv _ h⟩
  · exact ⟨_, load_run _ hv _ h⟩
  · exact ⟨_, load_run _ hv _ h⟩
  · exact ⟨_, load_run _ hv _ h⟩
  · exact ⟨_, store_run _ hv h⟩
  · exact ⟨_, store_run _ hv h⟩
  · exact ⟨_, store_run _ hv h⟩

end

section

variable {layout : Layout} {clobber : Clobber} {a : Allocation} {tr : Translator} {inst : Inst}
  {m : Machine State}

theorem memType_reaches (clobber : Clobber) (hm : Ready layout m) (huses : tr.Uses a)
    (hv : tr.isVirtualAddressing = false) (hcmd : inst.getCmd ∈ memTypes) :
    Reaches (env layout clobber) inst.translate tr m
      [(((a.regs m).get inst.getRs1).setWidth 64 + layout.mem + IMM inst,
        (accessOf inst.getCmd).bytes)] := by
  obtain ⟨imm, rs1, rs2, rd, c, hc⟩ := inst
  simp only [memTypes, Inst.getCmd, List.mem_cons, List.not_mem_nil, or_false] at hcmd
  rcases hcmd with rfl | rfl | rfl | rfl | rfl | rfl | rfl | rfl
  · exact load_reaches (T := .int8_t) hm huses hv (fun _ ↦ rfl) fun _ ↦ rfl
  · exact load_reaches (T := .int16_t) hm huses hv (fun _ ↦ rfl) fun _ ↦ rfl
  · exact load_reaches (T := .int32_t) hm huses hv (fun dst ↦ translateMove_of_mem dst _) fun _ ↦ rfl
  · exact load_reaches (T := .uint8_t) hm huses hv (fun _ ↦ rfl) fun _ ↦ rfl
  · exact load_reaches (T := .uint16_t) hm huses hv (fun _ ↦ rfl) fun _ ↦ rfl
  · exact store_reaches hm huses hv _
  · exact store_reaches hm huses hv _
  · exact store_reaches hm huses hv _

/-- The code of a template gets at guest memory only where the interpreter does, inside it, and
stops where the interpreter does. -/
def StaysInside (layout : Layout) (clobber : Clobber) (a : Allocation) (tr : Translator) (inst : Inst)
    (offset : U32) (m : Machine State) : Prop :=
  let s := a.guest m
  let va := s.regs.get inst.getRs1 + inst.getImm
  let code := emitted inst.translate tr
  (∀ p ∈ reached (env layout clobber) .rdi code m,
    p.1 = layout.mem + va.setWidth 64 ∧ va.toNat + p.2 ≤ s.mmu.pmem_size_) ∧
  ∀ s', (inst.func_.exec inst offset).run s = .error (.simException "Address is out of memory") s' →
    reached (env layout clobber) .rdi code m = [] ∧
    ∃ m', (block (env layout clobber) code).run m =
      .error (.simException "Address is out of memory") m'

/-- The sum of the template is the 32-bit sum of the interpreter if that does not wrap. -/
theorem wide_sum_iff (v imm : U32) :
    v.setWidth 64 + imm.signExtend 64 = (v + imm).setWidth 64 ↔
      (v.toNat : ℤ) + imm.toInt = ((v + imm).toNat : ℤ) := by
  have hv := v.isLt
  have hi := imm.isLt
  rw [← BitVec.toNat_inj, BitVec.toNat_add, BitVec.toNat_signExtend, BitVec.toNat_setWidth,
    BitVec.toNat_setWidth, BitVec.toNat_setWidth, BitVec.toNat_add, BitVec.toInt_eq_msb_cond]
  have hm := BitVec.msb_eq_decide imm
  cases himm : imm.msb with
  | false =>
    simp only [Bool.false_eq_true, if_false]
    omega
  | true =>
    rw [himm, eq_comm, decide_eq_true_iff] at hm
    simp only [if_true]
    omega

theorem memType_staysInside_iff (hcmd : inst.getCmd ∈ memTypes) (huses : tr.Uses a)
    (hm : Ready layout m) (hv : tr.isVirtualAddressing = false)
    (hbare : m.world.mmu.isVirtualAddressing = false) (offset : U32) :
    let v := (a.regs m).get inst.getRs1
    let va := v + inst.getImm
    StaysInside layout clobber a tr inst offset m ↔
      (v.toNat : ℤ) + inst.getImm.toInt = va.toNat ∧
        va.toNat + (accessOf inst.getCmd).bytes < m.world.mmu.pmem_size_ := by
  intro v va
  have hreach := (memType_reaches clobber hm huses hv hcmd).emitted
  have hguest : (a.guest m).mmu.isVirtualAddressing = false := hbare
  have haddr : v.setWidth 64 + layout.mem + IMM inst = layout.mem + va.setWidth 64 ↔
      (v.toNat : ℤ) + inst.getImm.toInt = va.toNat := by
    rw [← wide_sum_iff, BitVec.add_comm (v.setWidth 64), BitVec.add_assoc]
    exact add_right_inj layout.mem
  rw [StaysInside, hreach]
  constructor
  · rintro ⟨hin, hstop⟩
    have hp := hin _ List.mem_cons_self
    refine ⟨haddr.mp hp.1, ?_⟩
    by_contra hout
    have hnone := (hstop _ (exec_memType_out hcmd offset hguest (Nat.not_lt.mp hout))).1
    cases hnone
  · rintro ⟨hsum, hlt⟩
    refine ⟨fun p hp ↦ ?_, fun s' hs' ↦ ?_⟩
    · rw [List.mem_singleton.mp hp]
      exact ⟨haddr.mpr hsum, Nat.le_of_lt hlt⟩
    · obtain ⟨s'', hs''⟩ := exec_memType_in hcmd offset hguest hlt
      rw [hs''] at hs'
      cases hs'

end

theorem memType_staysInside_iff_lw :
    StaysInside ⟨0, 0⟩ (fun _ _ _ ↦ 0) .slots (.init [] false) (genI ⟨.LW, by decide⟩ 1 2 4) 0
      (atEntry .fill0) :=
  (memType_staysInside_iff (by decide) (uses_slots _ _) (ready_atEntry _) rfl rfl 0).mpr
    ⟨by decide, by decide⟩

/-- `lw x1, -4(x0)`: the interpreter stops at `0xfffffffc`, the native code reads four bytes below
the guest's memory. -/
theorem lw_outside :
    let inst := genI ⟨.LW, by decide⟩ 1 0 0xfffffffc
    let tr := Translator.init [inst, genJ ⟨.JAL, by decide⟩ 0 4] false
    let m := atEntry .fill0
    tr.Uses .slots ∧ Ready ⟨0, 0⟩ m ∧
      ¬StaysInside ⟨0, 0⟩ (fun _ _ _ ↦ 0) .slots tr inst 0 m := by
  intro inst tr m
  have huses : tr.Uses .slots := uses_slots _ _
  have hm : Ready ⟨0, 0⟩ m := ready_atEntry _
  have hcmd : inst.getCmd ∈ memTypes := by decide
  have hreach := (memType_reaches (fun _ _ _ ↦ 0) hm huses rfl hcmd).emitted
  refine ⟨huses, hm, fun h ↦ ?_⟩
  have hp := h.1 (0xfffffffffffffffc, 4) ?_
  · exact absurd hp.1 (by decide)
  · rw [hreach]
    decide

end RiscvSim
