import RiscvSim.MemTemplates
import RiscvSim.JumpTemplates

namespace RiscvSim

open Isa Ir X86 Results Translator Native TranslateInst BitFields

/-- The guest memory lies beside the `State` object. -/
def Layout.Beside (layout : Layout) (size : ℕ) : Prop :=
  ∀ va : U32, va.toNat < size → 152 ≤ (layout.mem + va.setWidth 64 - layout.state).toNat

def moveOf : AccessAs → Id
  | .int8_t | .int16_t => .movsx
  | .uint8_t | .uint16_t => .movzx
  | .int32_t | .uint32_t => .mov

/-- What a value of the type is as a register. -/
def extendAs : (T : AccessAs) → BitVec (8 * T.bytes) → U32
  | .int8_t, v => v.signExtend 32
  | .int16_t, v => v.signExtend 32
  | .int32_t, v => v.signExtend 32
  | .uint8_t, v => v.setWidth 32
  | .uint16_t, v => v.setWidth 32
  | .uint32_t, v => v.setWidth 32

namespace Native

section

variable {layout : Layout} {clobber : Clobber} {inst : Inst} {m : Machine State} {va : U32}
  (hside : layout.Beside m.world.mmu.pmem_size_)

theorem setWidth_read (mem : ℕ → U8) (a : ℕ) {n k : ℕ} (h : k = n) :
    (Bytes.read mem a k).setWidth (8 * n) = Bytes.read mem a n := by
  subst h
  exact BitVec.setWidth_eq _

theorem write_setWidth (mem : ℕ → U8) (a : ℕ) {n k : ℕ} (h : k = n) (v : BitVec (8 * n)) :
    Bytes.write mem a (v.setWidth (8 * k)) = Bytes.write mem a v := by
  subst h
  rw [BitVec.setWidth_eq]

include hside

theorem placeOf_guest (hlt : va.toNat < m.world.mmu.pmem_size_) :
    placeOf layout (layout.mem + va.setWidth 64) = some (.guest va.toNat) := by
  rw [placeOf, if_neg (Nat.not_lt.mpr (hside va hlt)), add_sub_self]
  exact congrArg (some ∘ Place.guest) (setWidth_toNat (by decide) va)

variable (hrax : m.regs .rax + IMM inst = layout.mem + va.setWidth 64)

include hrax

/-- The operand of a template is the guest memory at the address. -/
theorem value_guest (clobber : Clobber) (T : AccessAs) (hlt : va.toNat + T.bytes < m.world.mmu.pmem_size_) :
    m.value (env layout clobber) (8 * T.bytes) (TranslateInst.guest inst (8 * T.bytes)) =
      .ok (Bytes.read m.world.mmu.pmem_ va.toNat T.bytes) := by
  have hdiv : 8 * T.bytes / 8 = T.bytes := Nat.mul_div_cancel_left _ (by decide)
  change Native.load layout (m.regs .rax + IMM inst) (8 * T.bytes) m.world = _
  rw [hrax, Native.load, placeOf_guest hside (Nat.lt_of_le_of_lt (Nat.le_add_right _ _) hlt)]
  dsimp only
  rw [if_pos (by rw [hdiv]; exact hlt.le), setWidth_read _ _ hdiv]

theorem exec_guest (clobber : Clobber) (T : AccessAs)
    (hlt : va.toNat + T.bytes < m.world.mmu.pmem_size_) (g : Gp) :
    let src := TranslateInst.guest inst (8 * T.bytes)
    (exec (env layout clobber) (.bin (moveOf T) (.reg g 32) src)).run m =
      .ok () (put m (.host g) (extendAs T (Bytes.read m.world.mmu.pmem_ va.toNat T.bytes))) := by
  have hval := value_guest hside hrax clobber T hlt
  have hwide : ∀ id, id = .movsx ∨ id = .movzx → 8 * T.bytes < 32 →
      execBin (env layout clobber) m id (.reg g 32) (TranslateInst.guest inst (8 * T.bytes)) = (do
        let b ← m.value (env layout clobber) (8 * T.bytes) (TranslateInst.guest inst (8 * T.bytes))
        m.assign (env layout clobber) (if id = .movsx then b.signExtend 32 else b.setWidth 32)
          (.reg g 32)) := by
    intro id hid hn
    have hnarrow : narrow (TranslateInst.guest inst (8 * T.bytes)) = some (8 * T.bytes) := if_pos hn
    rcases hid with rfl | rfl
    · simp only [execBin, hnarrow, dstWidth]
    · simp only [execBin, hnarrow, dstWidth]
  cases T with
  | int8_t => exact exec_bin ((hwide .movsx (.inl rfl) (by decide)).trans (by rw [hval]; rfl))
  | int16_t => exact exec_bin ((hwide .movsx (.inl rfl) (by decide)).trans (by rw [hval]; rfl))
  | uint8_t => exact exec_bin ((hwide .movzx (.inr rfl) (by decide)).trans (by rw [hval]; rfl))
  | uint16_t => exact exec_bin ((hwide .movzx (.inr rfl) (by decide)).trans (by rw [hval]; rfl))
  | int32_t =>
    refine X86.exec_mov rfl hval ?_
    exact congrArg (fun v : U32 ↦ Except.ok (put m (.host g) v)) (BitVec.signExtend_eq _).symm
  | uint32_t =>
    refine X86.exec_mov rfl hval ?_
    exact congrArg (fun v : U32 ↦ Except.ok (put m (.host g) v)) (BitVec.setWidth_eq _).symm

theorem exec_to_guest (clobber : Clobber) (T : AccessAs)
    (hlt : va.toNat + T.bytes < m.world.mmu.pmem_size_) (g : Gp) :
    let dst := TranslateInst.guest inst (8 * T.bytes)
    (exec (env layout clobber) (.bin .mov dst (.reg g (8 * T.bytes)))).run m =
      .ok () { m with world := { m.world with
        mmu := m.world.mmu.writeMem va.toNat ((look m (.host g)).setWidth (8 * T.bytes)) } } := by
  have hdiv : 8 * T.bytes / 8 = T.bytes := Nat.mul_div_cancel_left _ (by decide)
  have hpart : m.get g (8 * T.bytes) = (look m (.host g)).setWidth (8 * T.bytes) := by
    refine (BitVec.setWidth_setWidth_of_le _ ?_).symm
    cases T <;> decide
  refine X86.exec_mov rfl rfl ?_
  rw [hpart]
  change (Native.store layout (m.regs .rax + IMM inst) _ m.world).map _ = _
  rw [hrax, Native.store, placeOf_guest hside (Nat.lt_of_le_of_lt (Nat.le_add_right _ _) hlt)]
  dsimp only
  rw [if_pos (by rw [hdiv]; exact hlt.le)]
  simp only [Except.map, MMU.writeMem]
  rw [write_setWidth _ _ hdiv]

end

end Native

section

variable {layout : Layout} {clobber : Clobber} {a : Allocation} {tr : Translator} {inst : Inst}
  {m m₀ : Machine State} {R : Regs}

theorem Allocation.Holds.mmu (h : a.Holds layout m₀ m R) : m.world.mmu = m₀.world.mmu := by
  rw [h.world]

theorem Allocation.guest_setMmu (a : Allocation) (m : Machine State) (mmu : MMU) :
    a.guest { m with world := { m.world with mmu := mmu } } = { a.guest m with mmu := mmu } := by
  have hr : a.regs { m with world := { m.world with mmu := mmu } } = a.regs m := by
    refine Regs.ext fun r ↦ ?_
    change valueOf _ (a.src r) = valueOf m (a.src r)
    cases a.src r with
    | imm v => rfl
    | loc l => cases l <;> rfl
  rw [guest, hr]
  rfl

namespace Emits

theorem toTmp2 (h : a.Holds layout m₀ m R) (s : Src) {Q : Machine State → Prop}
    (hQ : ∀ m', a.Holds layout m₀ m' R → m'.regs .rax = m.regs .rax →
      look m' (.host .rdx) = valueOf m s → Q m') :
    Emits (env layout clobber) (translateMove TMP2 s.op) tr m Q := by
  refine move (l := .host .rdx) h.ready (by decide) rfl fun f ↦ hQ _ ?_ ?_ ?_
  · exact (h.scratch (g := .rdx) (by decide) (by decide) _).withFlags f
  · exact m.regs_set_of_ne (show Gp.rax ≠ .rdx by decide) (valueOf m s)
  · rw [look_withFlags, look_put_self _ (by decide)]

section

variable (hm : Ready layout m) (huses : tr.Uses a) {va : U32}
  (hva : ((a.regs m).get inst.getRs1).setWidth 64 + IMM inst = va.setWidth 64)

include hm huses hva

theorem based {k : Tr Unit} {Q : Machine State → Prop}
    (h : ∀ m', a.Holds layout m m' (a.regs m) → m'.regs .rax + IMM inst = layout.mem + va.setWidth 64 →
      Emits (env layout clobber) k tr m' Q) :
    Emits (env layout clobber) (do
      translateMove TMP1 (← TranslateInst.RS1 inst)
      Translator.emit (.bin .add (.reg .rax 64) getMem)
      k) tr m Q := by
  have hbase := base inst clobber hm huses
  refine RS1 (seq (hbase.mono fun m₁ h₁ ↦ seq (h₁.mono fun m' h' ↦ h m' h'.1 ?_)))
  rw [h'.2, BitVec.add_comm _ layout.mem, BitVec.add_assoc, hva]

variable (hv : tr.isVirtualAddressing = false) (hside : layout.Beside m.world.mmu.pmem_size_)
  {T : AccessAs} (hlt : va.toNat + T.bytes < m.world.mmu.pmem_size_)

include hv hside hlt

theorem loads (clobber : Clobber) (result : Operand → Tr Unit) {access : Operand → Operand → Tr Unit}
    (hacc : ∀ dst, access dst (TranslateInst.guest inst (8 * T.bytes)) =
      Translator.emit (.bin (moveOf T) dst (TranslateInst.guest inst (8 * T.bytes)))) :
    Emits (env layout clobber) (translateLoad inst T result access) tr m fun m' ↦ a.Holds layout m m'
      ((a.regs m).set inst.getRd
        (extendAs T (Bytes.read m.world.mmu.pmem_ va.toNat T.bytes))) := by
  have hbase : Emits (env layout clobber) (do
      translateMove TMP1 (← TranslateInst.RS1 inst)
      Translator.emit (.bin .add (.reg .rax 64) getMem)
      let rd ← TranslateInst.RD inst
      if rd.isReg then access rd (TranslateInst.guest inst (8 * T.bytes))
      else
        access TMP2 (TranslateInst.guest inst (8 * T.bytes))
        translateMove rd TMP2) tr m fun m' ↦ a.Holds layout m m'
      ((a.regs m).set inst.getRd
        (extendAs T (Bytes.read m.world.mmu.pmem_ va.toNat T.bytes))) := by
    refine based hm huses hva fun m' h' hrax ↦ RD ?_
    have hguest := exec_guest (by rw [h'.mmu]; exact hside) hrax clobber T (by rw [h'.mmu]; exact hlt)
    rw [h'.mmu] at hguest
    have henc : ∀ g, (X86.Inst.bin (F := Callee) (moveOf T) (.reg g 32)
        (TranslateInst.guest inst (8 * T.bytes))).encodable = true := by
      intro g
      cases T <;> rfl
    split
    · next hreg =>
      rw [huses] at hreg
      obtain ⟨g, hg⟩ := Src.of_isReg hreg
      have hrd : inst.getRd ≠ 0 := by
        intro hz
        rw [hz, a.src_zero] at hg
        cases hg
      have hloc : a.loc inst.getRd = .host g := by
        rw [a.src_of_ne hrd] at hg
        exact Src.loc.inj hg
      rw [hacc, huses, hg]
      refine emit (henc g) (hguest g) ?_
      rw [← hloc]
      exact h'.put hrd _
    · rw [hacc]
      refine seq (emit (henc .rdx) (hguest .rdx) ?_)
      have hput := h'.scratch (g := .rdx) (by decide) (by decide)
        (extendAs T (Bytes.read m.world.mmu.pmem_ va.toNat T.bytes))
      exact moveToRd (g := .rdx) huses hput (look_put_self _ (by decide) _) fun _ h ↦ h
  refine hbase.congr_run fun pre ↦ ?_
  change (if tr.isVirtualAddressing = true then _ else _ : Tr Unit).run _ = _
  rw [if_neg (by rw [hv]; exact Bool.false_ne_true)]

theorem stores (clobber : Clobber) : Emits (env layout clobber) (translateStore inst T) tr m fun m' ↦
    let v := ((a.regs m).get inst.getRs2).setWidth (8 * T.bytes)
    Ready layout m' ∧ a.guest m' = { a.guest m with mmu := m.world.mmu.writeMem va.toNat v } := by
  have hwrite : ∀ g m', a.Holds layout m m' (a.regs m) →
      m'.regs .rax + IMM inst = layout.mem + va.setWidth 64 →
      look m' (.host g) = (a.regs m).get inst.getRs2 →
      Emits (env layout clobber) (translateMove (TranslateInst.guest inst (8 * T.bytes))
        (.reg g (8 * T.bytes))) tr m' fun m'' ↦
        let v := ((a.regs m).get inst.getRs2).setWidth (8 * T.bytes)
        Ready layout m'' ∧ a.guest m'' = { a.guest m with mmu := m.world.mmu.writeMem va.toNat v } := by
    intro g m' h' hrax hlook
    have hexec := exec_to_guest (by rw [h'.mmu]; exact hside) hrax clobber T
      (by rw [h'.mmu]; exact hlt) g
    refine emit rfl hexec ⟨h'.ready, ?_⟩
    rw [a.guest_setMmu, h'.guest, h'.mmu, hlook]
    rfl
  have hbase : Emits (env layout clobber) (do
      translateMove TMP1 (← TranslateInst.RS1 inst)
      Translator.emit (.bin .add (.reg .rax 64) getMem)
      let rs2 ← TranslateInst.RS2 inst
      if rs2.isReg then
        translateMove (TranslateInst.guest inst (8 * T.bytes)) (lowPart (8 * T.bytes) rs2)
      else
        translateMove TMP2 rs2
        translateMove (TranslateInst.guest inst (8 * T.bytes)) (lowPart (8 * T.bytes) TMP2)) tr m
      fun m' ↦
        let v := ((a.regs m).get inst.getRs2).setWidth (8 * T.bytes)
        Ready layout m' ∧ a.guest m' = { a.guest m with mmu := m.world.mmu.writeMem va.toNat v } := by
    refine based hm huses hva fun m' h' hrax ↦ RS2 ?_
    rw [huses]
    have hval := h'.value inst.getRs2
    split
    · next hreg =>
      obtain ⟨g, hg⟩ := Src.of_isReg hreg
      rw [hg] at hval ⊢
      exact hwrite g m' h' hrax hval
    · refine seq (toTmp2 h' _ fun m₂ h₂ hkeep hlook ↦ ?_)
      exact hwrite .rdx m₂ h₂ (by rw [hkeep]; exact hrax) (hlook.trans hval)
  refine hbase.congr_run fun pre ↦ ?_
  change (if tr.isVirtualAddressing = true then _ else _ : Tr Unit).run _ = _
  rw [if_neg (by rw [hv]; exact Bool.false_ne_true)]

end

end Emits

theorem eq_of_toInt_add {v imm va : U32} (h : (v.toNat : ℤ) + imm.toInt = va.toNat) : v + imm = va := by
  have hv := v.isLt
  have hi := imm.isLt
  have ha := va.isLt
  apply BitVec.eq_of_toNat_eq
  rw [BitVec.toInt_eq_toNat_cond] at h
  rw [BitVec.toNat_add]
  split at h <;> omega

variable (huses : tr.Uses a) (hm : Ready layout m) (hv : tr.isVirtualAddressing = false)
  (hbare : m.world.mmu.isVirtualAddressing = false) (hside : layout.Beside m.world.mmu.pmem_size_)
  {va : U32} (hsum : (((a.regs m).get inst.getRs1).toNat : ℤ) + inst.getImm.toInt = va.toNat)

include huses hm hv hbare hside hsum

section

variable {T : AccessAs} (hlt : va.toNat + T.bytes < m.world.mmu.pmem_size_) {offset : U32}

include hlt

theorem load_agrees {result : Operand → Tr Unit} {access : Operand → Operand → Tr Unit}
    (htranslate : inst.translate = translateLoad inst T result access)
    (hacc : ∀ dst, access dst (TranslateInst.guest inst (8 * T.bytes)) =
      Translator.emit (.bin (moveOf T) dst (TranslateInst.guest inst (8 * T.bytes))))
    (hexec : inst.func_.exec inst offset = ExecInst.load inst T.bytes (extendAs T)) :
    Agrees layout clobber a tr inst offset m := by
  obtain rfl := eq_of_toInt_add hsum
  have hwide := (wide_sum_iff ((a.regs m).get inst.getRs1) inst.getImm).mpr hsum
  have hloads := Emits.loads hm huses hwide hv hside hlt clobber result hacc
  rw [← htranslate] at hloads
  refine (agrees_iff hloads ?_).mpr (.inr rfl)
  rw [hexec]
  exact load_run (s := a.guest m) inst hbare (extendAs T) hlt

theorem store_agrees (htranslate : inst.translate = translateStore inst T)
    (hexec : inst.func_.exec inst offset = ExecInst.store inst T.bytes) :
    Agrees layout clobber a tr inst offset m := by
  obtain rfl := eq_of_toInt_add hsum
  have hwide := (wide_sum_iff ((a.regs m).get inst.getRs1) inst.getImm).mpr hsum
  have hstores := Emits.stores hm huses hwide hv hside hlt clobber
  rw [← htranslate] at hstores
  obtain ⟨m', hrun, -, hm'⟩ := hstores.run
  refine ⟨m', hrun, ?_⟩
  rw [hexec, hm']
  exact store_run (s := a.guest m) inst hbare hlt

end

/-- The templates of the loads and stores are right wherever the address that they form, without
wrapping at 32 bits, is one that the interpreter accepts. -/
theorem memType_agrees (hcmd : inst.getCmd ∈ memTypes)
    (hlt : va.toNat + (accessOf inst.getCmd).bytes < m.world.mmu.pmem_size_) (offset : U32) :
    Agrees layout clobber a tr inst offset m := by
  obtain ⟨imm, rs1, rs2, rd, c, hc⟩ := inst
  simp only [memTypes, Inst.getCmd, List.mem_cons, List.not_mem_nil, or_false] at hcmd
  rcases hcmd with rfl | rfl | rfl | rfl | rfl | rfl | rfl | rfl
  · exact load_agrees huses hm hv hbare hside hsum (T := .int8_t) hlt rfl (fun _ ↦ rfl) rfl
  · exact load_agrees huses hm hv hbare hside hsum (T := .int16_t) hlt rfl (fun _ ↦ rfl) rfl
  · exact load_agrees huses hm hv hbare hside hsum (T := .int32_t) hlt rfl
      (fun dst ↦ translateMove_of_mem dst _) rfl
  · exact load_agrees huses hm hv hbare hside hsum (T := .uint8_t) hlt rfl (fun _ ↦ rfl) rfl
  · exact load_agrees huses hm hv hbare hside hsum (T := .uint16_t) hlt rfl (fun _ ↦ rfl) rfl
  · exact store_agrees huses hm hv hbare hside hsum (T := .uint8_t) hlt rfl rfl
  · exact store_agrees huses hm hv hbare hside hsum (T := .uint16_t) hlt rfl rfl
  · exact store_agrees huses hm hv hbare hside hsum (T := .uint32_t) hlt rfl rfl

end

/-- `lh x1, -2(x2)` at the end of the memory. -/
theorem memType_agrees_lh :
    Agrees ⟨0, 0x1000⟩ (fun _ _ _ ↦ 0) .slots (.init [] false) (genI ⟨.LH, by decide⟩ 1 2 0xfffffffe) 0
      (atEntry (Regs.fill0.set 2 4094)) := by
  refine @memType_agrees ⟨0, 0x1000⟩ _ .slots _ (genI ⟨.LH, by decide⟩ 1 2 0xfffffffe)
    (atEntry (Regs.fill0.set 2 4094)) (uses_slots _ _) rfl rfl rfl ?_ 4092 (by decide)
    (by decide) (by decide) 0
  intro va hva
  replace hva : va.toNat < 4096 := hva
  change 152 ≤ (0x1000#64 + va.setWidth 64 - 0#64).toNat
  bv_omega

end RiscvSim
