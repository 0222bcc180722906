import RiscvSim.Passes
import RiscvSim.Library.StateRules
import RiscvSim.Library.X86Frames

namespace RiscvSim

open Isa Ir X86 Results Translator TranslateInst

/-- The registers that a function leaves as it finds them. -/
def calleeSaved : List Gp := [.rbx, .rbp, .rsp, .r12, .r13, .r14, .r15]

/-- The operand is none of these registers. -/
def Scratch (op : Operand) : Prop := ∀ r w, op = .reg r w → r ∉ calleeSaved

theorem scratch_reg {g : Gp} (hg : g ∉ calleeSaved) (w : ℕ) : Scratch (.reg g w) := by
  intro r w' h
  cases h
  exact hg

theorem scratch_mem (a : Mem) : Scratch (.mem a) := nofun

theorem scratch_imm (v : U64) : Scratch (.imm v) := nofun

theorem scratch_tmp1 : Scratch TMP1 := scratch_reg (by decide) 32

theorem scratch_tmp2 : Scratch TMP2 := scratch_reg (by decide) 32

/-- The code so far leaves `d` words on the stack, and neither it nor the allocator uses a register that
is not its own. -/
structure Orderly (d : ℕ) (locs : Reg → Operand) (tr : Translator) : Prop where
  depth : depthAfter tr.code_ 0 = some d
  spares : ∀ i, .inst i ∈ tr.code_ → i.Spares (· ∈ calleeSaved)
  mapping : tr.reg_mapping_ = locs
  scratch : ∀ r, Scratch (locs r)
  pool : ∀ g ∈ tr.reg_pool_, g ∉ calleeSaved

/-- The template keeps the code orderly, wherever it stands. -/
def Neat (x : Tr Unit) : Prop := ∀ d locs, Sends (Orderly d locs) (fun _ ↦ True) (Orderly d locs) x

section

variable {d e : ℕ} {locs : Reg → Operand}

theorem orderly_emit {i : X86.Inst Callee} (henc : i.encodable = true) (hi : i.Spares (· ∈ calleeSaved))
    (hd : (Item.inst i).depth d = some e) :
    Sends (Orderly d locs) (fun _ ↦ True) (Orderly e locs) (emit i) := by
  refine .modify fun tr h ↦ ⟨?_, fun j hj ↦ ?_, h.mapping, h.scratch, h.pool⟩
  · rw [X86.emit, if_pos henc, depthAfter_append, h.depth, Option.bind_some, depthAfter_cons, hd]
    rfl
  · rw [X86.emit, if_pos henc] at hj
    rcases List.mem_append.mp hj with hj | hj
    · exact h.spares j hj
    · cases List.mem_singleton.mp hj
      exact hi

/-- An instruction that is not encoded changes nothing. -/
theorem orderly_emit_level {i : X86.Inst Callee} (hi : i.Spares (· ∈ calleeSaved))
    (hd : (Item.inst i).depth d = some d) :
    Sends (Orderly d locs) (fun _ ↦ True) (Orderly d locs) (emit i) := by
  cases henc : i.encodable with
  | true => exact orderly_emit henc hi hd
  | false =>
    refine .modify fun tr h ↦ ?_
    rw [X86.emit, if_neg (by rw [henc]; exact Bool.false_ne_true), List.append_nil]
    exact h

theorem orderly_bindLabel (l : ℕ) :
    Sends (Orderly 0 locs) (fun _ ↦ True) (Orderly 0 locs) (bindLabel l) := by
  refine .modify fun tr h ↦ ⟨?_, fun j hj ↦ ?_, h.mapping, h.scratch, h.pool⟩
  · rw [depthAfter_append, h.depth]
    rfl
  · rcases List.mem_append.mp hj with hj | hj
    · exact h.spares j hj
    · cases List.mem_singleton.mp hj

theorem orderly_newLabel : Sends (Orderly d locs) (fun _ ↦ True) (Orderly d locs) newLabel :=
  fun _ h ↦ ⟨trivial, h.depth, h.spares, h.mapping, h.scratch, h.pool⟩

theorem orderly_getReg (reg : Reg) : Sends (Orderly d locs) Scratch (Orderly d locs)
    (do return (← get).getReg reg : Tr Operand) := by
  refine .gets (fun tr : Translator ↦ tr.getReg reg) fun tr h ↦ ?_
  rw [Translator.getReg]
  split
  · rw [h.mapping]
    exact h.scratch reg
  · exact scratch_imm 0

end

namespace Neat

variable {x y : Tr Unit} {inst : Inst} {k : Operand → Tr Unit}

theorem pure : Neat (Pure.pure ()) := fun _ _ ↦ .pure trivial

theorem seq (hx : Neat x) (hy : Neat y) : Neat (do x; y) := fun d m ↦ (hx d m).bind fun _ _ ↦ hy d m

theorem ite {p : Prop} [Decidable p] (hx : Neat x) (hy : Neat y) : Neat (if p then x else y) :=
  fun d m ↦ .ite (fun _ ↦ hx d m) fun _ ↦ hy d m

theorem bin {id : Id} {dst : Operand} (hd : Scratch dst) (src : Operand) : Neat (emit (.bin id dst src)) :=
  fun _ _ ↦ orderly_emit_level hd rfl

theorem set {dst : Operand} (hd : Scratch dst) (c : Cond) : Neat (emit (.set c dst)) :=
  fun _ _ ↦ orderly_emit_level hd rfl

theorem mul (src : Operand) : Neat (emit (.mul src)) :=
  fun _ _ ↦ orderly_emit_level ⟨by decide, by decide⟩ rfl

theorem call (f : Callee) : Neat (emit (.call f)) := fun _ _ ↦ orderly_emit_level trivial rfl

theorem RS1 (h : ∀ op, Scratch op → Neat (k op)) : Neat (TranslateInst.RS1 inst >>= k) :=
  fun d m ↦ (orderly_getReg _).bind fun op hop ↦ h op hop d m

theorem RS2 (h : ∀ op, Scratch op → Neat (k op)) : Neat (TranslateInst.RS2 inst >>= k) :=
  fun d m ↦ (orderly_getReg _).bind fun op hop ↦ h op hop d m

theorem RD (h : ∀ op, Scratch op → Neat (k op)) : Neat (TranslateInst.RD inst >>= k) :=
  fun d m ↦ (orderly_getReg _).bind fun op hop ↦ h op hop d m

theorem OFFSET {k : U64 → Tr Unit} (h : ∀ v, Neat (k v)) : Neat (TranslateInst.OFFSET >>= k) :=
  fun d m tr htr ↦ h tr.getOffset d m tr htr

theorem move {dst : Operand} (hd : Scratch dst) (src : Operand) : Neat (translateMove dst src) :=
  .ite (.bin hd _) (.bin hd _)

theorem moveVia {dst : Operand} (hd : Scratch dst) (src : Operand) : Neat (TranslateInst.moveVia dst src) :=
  .ite (.move hd src) (.seq (.move scratch_tmp1 src) (.move hd _))

theorem firstOperand (h : ∀ op, Scratch op → Neat (k op)) : Neat (TranslateInst.firstOperand inst >>= k) := by
  intro d m
  refine Sends.bind (Q := Scratch) ?_ fun op hop ↦ h op hop d m
  refine (orderly_getReg _).bind fun rs1 hrs1 ↦ .ite (fun _ ↦ ?_) fun _ ↦ .pure hrs1
  exact (Neat.move scratch_tmp1 rs1 d m).bind fun _ _ ↦ .pure scratch_tmp1

variable (inst)

theorem immType (id : Id) : Neat (translateImmType inst id) := by
  refine .ite .pure (.RD fun rd hrd ↦ .RS1 fun rs1 _ ↦ ?_)
  exact .ite (.seq (.moveVia hrd _) (.bin hrd _)) (.bin hrd _)

theorem regType (id : Id) : Neat (translateRegType inst id) := by
  refine .ite .pure (.RD fun rd hrd ↦ .RS1 fun rs1 _ ↦ .RS2 fun rs2 _ ↦ ?_)
  refine .ite (.ite (.bin hrd _) (.seq (.move scratch_tmp1 _) (.bin hrd _))) (.ite ?_ ?_)
  · exact .seq (.move hrd _) (.bin hrd _)
  · exact .seq (.move scratch_tmp1 _) (.seq (.bin scratch_tmp1 _) (.move hrd _))

theorem shift (id : Id) : Neat (translateShift inst id) := by
  have hrcx : Scratch (.reg .rcx 32) := scratch_reg (by decide) 32
  refine .ite .pure (.RD fun rd hrd ↦ .RS1 fun rs1 _ ↦ ?_)
  have hdst : Scratch (if rd.isMem then TMP1 else rd) := by
    split
    · exact scratch_tmp1
    · exact hrd
  have hcount : Neat (do
      if inst.getRs2 = 0 then return
      translateMove TMP1 (.reg .rcx 32)
      translateMove (.reg .rcx 32) (← TranslateInst.RS2 inst)
      Translator.emit (.bin id rd (.reg .rcx 8))
      translateMove (.reg .rcx 32) TMP1) :=
    .ite .pure (.seq (.move scratch_tmp1 _) (.RS2 fun rs2 _ ↦
      .seq (.move hrcx _) (.seq (.bin hrd _) (.move hrcx _))))
  have hmem : Neat (do
      if rd.isMem then translateMove rd TMP1
      if inst.getRs2 = 0 then return
      translateMove TMP1 (.reg .rcx 32)
      translateMove (.reg .rcx 32) (← TranslateInst.RS2 inst)
      Translator.emit (.bin id rd (.reg .rcx 8))
      translateMove (.reg .rcx 32) TMP1) := .ite (.seq (.move hrd _) hcount) hcount
  exact .ite (.seq (.move hdst _) hmem) hmem

theorem setOn (cond : Cond) : Neat (translateSet inst cond) :=
  .firstOperand fun _ hfst ↦ .RS2 fun _ _ ↦ .seq (.bin hfst _)
    (.RD fun _ hrd ↦ .seq (.bin hrd _) (.RD fun _ hrd ↦ .set hrd _))

theorem product (half : Operand) : Neat (translateProduct inst half) :=
  .RS1 fun _ _ ↦ .seq (.move scratch_tmp1 _) (.RS2 fun _ _ ↦ .seq (.mul _) (.RD fun _ hrd ↦ .move hrd _))

theorem lui : Neat (translateLUI inst) := .RD fun _ hrd ↦ .move hrd _

theorem auipc : Neat (translateAUIPC inst) :=
  .seq (.move scratch_tmp1 _) (.OFFSET fun _ ↦ .seq (.bin scratch_tmp1 _) (.RD fun _ hrd ↦ .move hrd _))

theorem addi : Neat (translateADDI inst) :=
  .RD fun _ hrd ↦ .ite (.move hrd _) (.ite (.RS1 fun _ _ ↦ .moveVia hrd _) (immType inst .add))

theorem setImm (cond : Cond) (v : U64) : Neat (do
    Translator.emit (.bin .cmp (← TranslateInst.RS1 inst) (.imm v))
    Translator.emit (.bin .mov (← TranslateInst.RD inst) (.imm 0))
    Translator.emit (.set cond (← TranslateInst.RD inst))) :=
  .RS1 fun _ hrs1 ↦ .seq (.bin hrs1 _) (.RD fun _ hrd ↦ .seq (.bin hrd _) (.RD fun _ hrd ↦ .set hrd _))

theorem add : Neat (translateADD inst) := by
  refine .ite ?_ (regType inst .add)
  have hsrc : ∀ src, Neat (do
      TranslateInst.moveVia (← TranslateInst.RD inst) src
      translateRegType inst .add) := fun src ↦ .RD fun _ hrd ↦ .seq (.moveVia hrd src) (regType inst .add)
  exact .ite (.RS1 fun _ _ ↦ hsrc _) (.RS2 fun _ _ ↦ hsrc _)

theorem jal : Neat (translateJAL inst) := by
  have hpc : Scratch PC := scratch_mem _
  refine .OFFSET fun _ ↦ .ite (.RD fun _ hrd ↦ ?_) (.bin hpc _)
  exact .seq (.move scratch_tmp1 _) (.seq (.move hrd _) (.seq (.bin hrd _) (.bin hpc _)))

theorem jalr : Neat (translateJALR inst) := by
  have hpc : Scratch PC := scratch_mem _
  refine .OFFSET fun _ ↦ .seq (.bin hpc _) (.seq (.move scratch_tmp1 _) (.RD fun _ hrd ↦ .seq (.move hrd _) ?_))
  exact .RS1 fun _ _ ↦ .seq (.move scratch_tmp1 _)
    (.seq (.bin scratch_tmp1 _) (.seq (.bin scratch_tmp1 _) (.move hpc _)))

end Neat

section

variable {d : ℕ} {locs : Reg → Operand}

/-- The registers of this list that are in host registers. -/
def hosted (locs : Reg → Operand) (l : List Reg) : ℕ := l.countP fun r ↦ (locs r).isReg

theorem orderly_push {op : Operand} (h : op.isReg = true) :
    Sends (Orderly d locs) (fun _ ↦ True) (Orderly (d + 1) locs) (emit (.push op)) := orderly_emit h trivial rfl

theorem orderly_pop {op : Operand} (h : op.isReg = true) (hop : Scratch op) :
    Sends (Orderly (d + 1) locs) (fun _ ↦ True) (Orderly d locs) (emit (.pop op)) := orderly_emit h hop rfl

/-- An instruction for a register that is in a host register. -/
theorem orderly_ifReg {J : Translator → Prop} (reg : Reg) (i : Operand → X86.Inst Callee)
    (hyes : (locs reg).isReg = true →
      Sends (Orderly d locs) (fun _ ↦ True) J (Translator.emit (i (locs reg))))
    (hno : (locs reg).isReg = false → ∀ tr, Orderly d locs tr → J tr) :
    Sends (Orderly d locs) (fun _ ↦ True) J (do
      let op := (← get).reg_mapping_ reg
      if op.isReg then Translator.emit (i op)) := by
  intro tr h
  have hrun : (do
      let op := (← get).reg_mapping_ reg
      if op.isReg then Translator.emit (i op) : Tr Unit).run tr =
        (if (tr.reg_mapping_ reg).isReg then Translator.emit (i (tr.reg_mapping_ reg))
          else Pure.pure () : Tr Unit).run tr := rfl
  rw [hrun, h.mapping]
  cases hreg : (locs reg).isReg with
  | true => exact hyes hreg tr h
  | false => exact ⟨trivial, hno hreg tr h⟩

theorem orderly_saveAllRegs :
    Sends (Orderly d locs) (fun _ ↦ True) (Orderly (d + hosted locs allRegs) locs) saveAllRegs := by
  let left (l : List Reg) (tr : Translator) : Prop :=
    ∃ e, e + hosted locs l = d + hosted locs allRegs ∧ Orderly e locs tr
  have hround : ∀ reg l, Sends (left (reg :: l)) (fun _ ↦ True) (left l) (do
      let op := (← get).reg_mapping_ reg
      if op.isReg then Translator.emit (.push op)) := by
    rintro reg l tr ⟨e, he, h⟩
    rw [hosted, List.countP_cons, ← hosted] at he
    refine orderly_ifReg reg .push (fun hreg ↦ ?_) (fun hreg tr h ↦ ?_) tr h
    · rw [if_pos hreg] at he
      exact (orderly_push hreg).mono (fun _ h ↦ h) fun _ h ↦ ⟨e + 1, by omega, h⟩
    · rw [if_neg (by rw [hreg]; exact Bool.false_ne_true)] at he
      exact ⟨e, he, h⟩
  refine (Sends.forM allRegs hround).mono (fun tr h ↦ ⟨d, rfl, h⟩) fun tr h ↦ ?_
  obtain ⟨e, he, h⟩ := h
  rw [← he]
  exact h

theorem orderly_restoreAllRegs (hscratch : ∀ r, Scratch (locs r)) :
    Sends (Orderly (d + hosted locs allRegs) locs) (fun _ ↦ True) (Orderly d locs) restoreAllRegs := by
  let left (l : List Reg) (tr : Translator) : Prop := Orderly (d + hosted locs l) locs tr
  have hround : ∀ reg l, Sends (left (reg :: l)) (fun _ ↦ True) (left l) (do
      let op := (← get).reg_mapping_ reg
      if op.isReg then Translator.emit (.pop op)) := by
    intro reg l tr h
    change Orderly (d + hosted locs (reg :: l)) locs tr at h
    rw [hosted, List.countP_cons, ← hosted] at h
    refine orderly_ifReg reg .pop (fun hreg ↦ ?_) (fun hreg tr h ↦ ?_) tr h
    · rw [if_pos hreg]
      exact orderly_pop hreg (hscratch reg)
    · rw [if_neg (by rw [hreg]; exact Bool.false_ne_true)] at h
      exact h
  refine (Sends.forM allRegs.reverse hround).mono (fun tr h ↦ ?_) fun tr h ↦ h
  change Orderly (d + hosted locs allRegs.reverse) locs tr
  rw [hosted, List.countP_reverse]
  exact h

namespace Neat

variable (inst : Inst) (T : AccessAs)

theorem mmuLoad : Neat (translateMMULoad inst T) := by
  have hrdi : Scratch (.reg .rdi 32) := scratch_reg (by decide) 32
  intro d locs tr h
  have hall : Sends (Orderly d locs) (fun _ ↦ True) (Orderly d locs) (translateMMULoad inst T) :=
    orderly_saveAllRegs.bind fun _ _ ↦ (orderly_getReg _).bind fun rs1 _ ↦
      (Neat.bin hrdi rs1 _ _).bind fun _ _ ↦ (Neat.bin hrdi _ _ _).bind fun _ _ ↦
        (Neat.call _ _ _).bind fun _ _ ↦ orderly_restoreAllRegs h.scratch
  exact hall tr h

theorem mmuStore : Neat (translateMMUStore inst T) := by
  have hrdi : Scratch (.reg .rdi 32) := scratch_reg (by decide) 32
  have hrsi : Scratch (.reg .rsi 32) := scratch_reg (by decide) 32
  intro d locs tr h
  have hall : Sends (Orderly d locs) (fun _ ↦ True) (Orderly d locs) (translateMMUStore inst T) :=
    orderly_saveAllRegs.bind fun _ _ ↦ (orderly_getReg _).bind fun rs1 _ ↦
      (Neat.bin hrdi rs1 _ _).bind fun _ _ ↦ (Neat.bin hrdi _ _ _).bind fun _ _ ↦
        (orderly_getReg _).bind fun rs2 _ ↦ (Neat.bin hrsi rs2 _ _).bind fun _ _ ↦
          (Neat.call _ _ _).bind fun _ _ ↦ orderly_restoreAllRegs h.scratch
  exact hall tr h

theorem virt {x y : Tr Unit} (hx : Neat x) (hy : Neat y) :
    Neat (do if (← get).isVirtualAddressing then x else y) :=
  fun d locs tr h ↦ ((Neat.ite hx hy : Neat (if tr.isVirtualAddressing then x else y)) d locs tr h)

theorem load {result : Operand → Tr Unit} {access : Operand → Operand → Tr Unit}
    (hresult : ∀ rd, Scratch rd → Neat (result rd)) (haccess : ∀ dst src, Scratch dst → Neat (access dst src)) :
    Neat (translateLoad inst T result access) := by
  have hrax : Scratch (.reg .rax 64) := scratch_reg (by decide) 64
  refine virt (.seq (mmuLoad inst T) (.RD fun _ hrd ↦ hresult _ hrd)) ?_
  refine .RS1 fun _ _ ↦ .seq (.move scratch_tmp1 _) (.seq (.bin hrax _) (.RD fun _ hrd ↦ ?_))
  exact .ite (haccess _ _ hrd) (.seq (haccess _ _ scratch_tmp2) (.move hrd _))

theorem store : Neat (translateStore inst T) := by
  have hrax : Scratch (.reg .rax 64) := scratch_reg (by decide) 64
  have hguest : Scratch (guest inst (8 * T.bytes)) := scratch_mem _
  refine virt (mmuStore inst T) ?_
  refine .RS1 fun _ _ ↦ .seq (.move scratch_tmp1 _) (.seq (.bin hrax _) (.RS2 fun _ _ ↦ ?_))
  exact .ite (.move hguest _) (.seq (.move scratch_tmp2 _) (.move hguest _))

end Neat

end

/-- Nothing of the code so far is on the stack. -/
def Level (tr : Translator) : Prop := ∃ locs, Orderly 0 locs tr

/-- A part of the translation between which the stack is as at the start. -/
def Levels (x : Tr Unit) : Prop := Sends Level (fun _ ↦ True) Level x

theorem Neat.levels {x : Tr Unit} (h : Neat x) : Levels x := by
  rintro tr ⟨locs, ht⟩
  obtain ⟨-, h'⟩ := h 0 locs tr ht
  exact ⟨trivial, locs, h'⟩

theorem Orderly.remap {d : ℕ} {locs : Reg → Operand} {tr : Translator} (h : Orderly d locs tr) (reg : Reg)
    {op : Operand} (hop : Scratch op) {pool : List Gp} (hpool : ∀ g ∈ pool, g ∉ calleeSaved) :
    Orderly d (Function.update locs reg op) { tr with
      reg_mapping_ := Function.update tr.reg_mapping_ reg op
      reg_pool_ := pool } := by
  refine ⟨h.depth, h.spares, congrArg (Function.update · reg op) h.mapping, fun r ↦ ?_, hpool⟩
  by_cases hr : r = reg
  · rw [hr, Function.update_self]
    exact hop
  · rw [Function.update_of_ne hr]
    exact h.scratch r

namespace Levels

variable {x y : Tr Unit}

theorem pure : Levels (Pure.pure ()) := Sends.pure trivial

theorem seq (hx : Levels x) (hy : Levels y) : Levels (do x; y) := hx.bind fun _ _ ↦ hy

theorem whenever {c : Translator → Prop} [DecidablePred c] (hx : Levels x) (hy : Levels y) : Levels (do
    let tr ← get
    if c tr then
      x
      y
    else y) :=
  fun tr h ↦ (Sends.ite (fun _ ↦ hx.seq hy) (fun _ ↦ hy) : Levels (if c tr then (do x; y) else y)) tr h

theorem allocateReg (reg : Reg) (load : Bool) : Levels (Translator.allocateReg reg load) := by
  rintro tr ⟨locs, h⟩
  rw [Translator.allocateReg, StateT.run_bind, StateT.run_get, pure_bind]
  dsimp only
  split
  · exact ⟨trivial, locs, h⟩
  · cases hp : tr.reg_pool_ with
    | nil => exact ⟨trivial, locs, h⟩
    | cons host rest =>
      have hpool := h.pool
      rw [hp] at hpool
      have hhost : Scratch (.reg host 32) := scratch_reg (hpool host List.mem_cons_self) 32
      have h' := h.remap reg hhost fun g hg ↦ hpool g (List.mem_cons_of_mem _ hg)
      have hload : Levels (if load then
          Translator.emit (.bin .mov (.reg host 32) (getRegMemOp reg)) else Pure.pure ()) :=
        Sends.ite (fun _ ↦ (Neat.bin hhost _).levels) fun _ ↦ pure
      exact hload _ ⟨_, h'⟩

theorem deallocateReg (reg : Reg) (sink : Bool) : Levels (Translator.deallocateReg reg sink) := by
  rintro tr ⟨locs, h⟩
  rw [Translator.deallocateReg, StateT.run_bind, StateT.run_get, pure_bind]
  dsimp only
  cases hm : tr.reg_mapping_ reg with
  | reg host w =>
    have hhost : host ∉ calleeSaved := by
      rw [h.mapping] at hm
      exact h.scratch reg host w hm
    have hslot : Scratch (getRegMemOp reg) := scratch_mem _
    have hfree : Levels (modify fun tr ↦ { tr with
        reg_pool_ := tr.reg_pool_ ++ [host]
        reg_mapping_ := Function.update tr.reg_mapping_ reg (getRegMemOp reg) }) := by
      refine Sends.modify fun tr h ↦ ?_
      obtain ⟨locs, h⟩ := h
      refine ⟨_, h.remap reg hslot fun g hg ↦ ?_⟩
      rcases List.mem_append.mp hg with hg | hg
      · exact h.pool g hg
      · rw [List.mem_singleton.mp hg]
        exact hhost
    have hback : Levels (do
        if sink then Translator.emit (.bin .mov (getRegMemOp reg) (.reg host w))
        modify fun tr ↦ { tr with
          reg_pool_ := tr.reg_pool_ ++ [host]
          reg_mapping_ := Function.update tr.reg_mapping_ reg (getRegMemOp reg) }) :=
      Sends.ite (fun _ ↦ (Neat.bin hslot _).levels.seq hfree) fun _ ↦ hfree
    exact hback tr ⟨locs, h⟩
  | mem a => exact ⟨trivial, locs, h⟩
  | imm v => exact ⟨trivial, locs, h⟩

theorem deallocateAllRegs : Levels Translator.deallocateAllRegs :=
  .forM (I := fun _ ↦ Level) allRegs fun r _ ↦ deallocateReg r true

theorem preWork (inst : Inst) : Levels (Translator.preWork inst) :=
  whenever (allocateReg _ _) (whenever (allocateReg _ _) (whenever (allocateReg _ _) pure))

theorem postWork (inst : Inst) : Levels (Translator.postWork inst) :=
  whenever (deallocateReg _ _) (whenever (deallocateReg _ _) (whenever (deallocateReg _ _) pure))

/-- A jump, where nothing is on the stack. -/
theorem jump {i : X86.Inst Callee} (hi : i.Spares (· ∈ calleeSaved)) (hd : (Item.inst i).depth 0 = some 0) :
    Levels (Translator.emit i) := by
  rintro tr ⟨locs, h⟩
  obtain ⟨-, h'⟩ := orderly_emit_level hi hd tr h
  exact ⟨trivial, locs, h'⟩

theorem bindLabel (l : ℕ) : Levels (Translator.bindLabel l) := by
  rintro tr ⟨locs, h⟩
  obtain ⟨-, h'⟩ := orderly_bindLabel l tr h
  exact ⟨trivial, locs, h'⟩

theorem newLabel {k : ℕ → Tr Unit} (h : ∀ l, Levels (k l)) : Levels (Translator.newLabel >>= k) := by
  rintro tr ⟨locs, ht⟩
  obtain ⟨-, h'⟩ := orderly_newLabel tr ht
  exact h _ _ ⟨locs, h'⟩

theorem condBranch (inst : Inst) (cond : Cond) : Levels (translateCondBranch inst cond) := by
  have hpc : Scratch PC := scratch_mem _
  have haddPC : ∀ v, Levels (Translator.emit (.bin .add PC (.imm v))) := fun v ↦ (Neat.bin hpc _).levels
  have hcompare : Neat (do
      let fst ← TranslateInst.firstOperand inst
      Translator.emit (.bin .cmp fst (← TranslateInst.RS2 inst))) :=
    .firstOperand fun _ hfst ↦ .RS2 fun _ _ ↦ .bin hfst _
  have hjumps : ∀ offset, Levels (jumps inst cond offset) := by
    intro offset
    refine .ite (fun _ ↦ newLabel fun taken ↦ newLabel fun exit ↦ ?_) fun _ ↦ ?_
    · exact (jump (i := .jcc cond taken) trivial rfl).seq ((haddPC _).seq
        ((jump (i := .jmp exit) trivial rfl).seq ((bindLabel _).seq ((haddPC _).seq (bindLabel _)))))
    · refine deallocateAllRegs.seq fun tr h ↦ ?_
      exact ((jump (i := .jcc cond tr.func_start_) trivial rfl).seq (haddPC _)) tr h
  intro tr h
  rw [run_condBranch]
  exact hjumps _ _ (hcompare.levels tr h).2

theorem translate (func : TranslateFunc) (inst : Inst) : Levels (func.translate inst) := by
  have hmovsx : ∀ dst src, Scratch dst → Neat (movsx dst src) := fun dst src hd ↦ .bin hd src
  have hmovzx : ∀ dst src, Scratch dst → Neat (movzx dst src) := fun dst src hd ↦ .bin hd src
  have hmove : ∀ dst src, Scratch dst → Neat (translateMove dst src) := fun dst src hd ↦ .move hd src
  cases func with
  | TranslateLB => exact (Neat.load inst _ (fun _ hrd ↦ hmovsx _ _ hrd) hmovsx).levels
  | TranslateLH => exact (Neat.load inst _ (fun _ hrd ↦ hmovsx _ _ hrd) hmovsx).levels
  | TranslateLW => exact (Neat.load inst _ (fun _ hrd ↦ hmove _ _ hrd) hmove).levels
  | TranslateLBU => exact (Neat.load inst _ (fun _ hrd ↦ hmove _ _ hrd) hmovzx).levels
  | TranslateLHU => exact (Neat.load inst _ (fun _ hrd ↦ hmove _ _ hrd) hmovzx).levels
  | TranslateSB | TranslateSH | TranslateSW => exact (Neat.store inst _).levels
  | TranslateLUI => exact (Neat.lui inst).levels
  | TranslateAUIPC => exact (Neat.auipc inst).levels
  | TranslateJAL => exact (Neat.jal inst).levels
  | TranslateJALR => exact (Neat.jalr inst).levels
  | TranslateBEQ | TranslateBNE | TranslateBLT | TranslateBGE | TranslateBLTU | TranslateBGEU =>
    exact condBranch inst _
  | TranslateADDI => exact (Neat.addi inst).levels
  | TranslateSLTI | TranslateSLTIU => exact (Neat.setImm inst _ _).levels
  | TranslateXORI | TranslateORI | TranslateANDI | TranslateSLLI | TranslateSRLI | TranslateSRAI =>
    exact (Neat.immType inst _).levels
  | TranslateADD => exact (Neat.add inst).levels
  | TranslateSUB | TranslateXOR | TranslateOR | TranslateAND => exact (Neat.regType inst _).levels
  | TranslateSLL | TranslateSRL | TranslateSRA => exact (Neat.shift inst _).levels
  | TranslateSLT | TranslateSLTU => exact (Neat.setOn inst _).levels
  | TranslateMUL | TranslateMULH => exact (Neat.product inst _).levels

theorem inst_translate (inst : Inst) : Levels inst.translate := by
  rw [Inst.translate]
  split
  · exact translate _ inst
  · exact pure

theorem translateAll (insts : List Inst) : Levels (Translator.translateAll Inst.translate insts) := by
  induction insts with
  | nil => exact pure
  | cons inst rest ih =>
    have hnext : Levels (modify fun tr ↦ { tr with cur_inst_ := tr.cur_inst_ + 1 }) :=
      Sends.modify fun tr h ↦ by
        obtain ⟨locs, h⟩ := h
        exact ⟨locs, h.depth, h.spares, h.mapping, h.scratch, h.pool⟩
    exact (preWork inst).seq ((inst_translate inst).seq ((postWork inst).seq (hnext.seq ih)))

theorem emitTrace (trace : List Inst) : Levels (Translator.emitTrace Inst.translate trace) := by
  intro tr h
  have hcount : Scratch (.mem ⟨.rdi, offsetofInsts, 64⟩) := scratch_mem _
  have hret : Levels (Translator.emit .ret) := jump trivial rfl
  exact ((bindLabel tr.func_start_).seq ((Neat.bin hcount _).levels.seq ((translateAll trace).seq hret))) tr h

end Levels

theorem level_init (trace : List Inst) (virt : Bool) : Level (init trace virt) := by
  refine ⟨getRegMemOp, rfl, fun i hi ↦ ?_, rfl, fun _ ↦ scratch_mem _, ?_⟩
  · cases hi
  · exact (by decide : ∀ g ∈ pool, g ∉ calleeSaved)

/-- The code of every trace pops what it pushes, and uses no callee-saved register. -/
theorem orderly_getFunc {trace : List Inst} {virt : Bool} {code : NativeCode}
    (hf : getFunc trace virt = some code) :
    Balanced 0 code ∧ ∀ i, .inst i ∈ code → i.Spares (· ∈ calleeSaved) := by
  rw [getFunc] at hf
  split at hf
  · cases hf
    obtain ⟨-, locs, h⟩ := Levels.emitTrace trace _ (level_init trace virt)
    exact ⟨⟨0, h.depth⟩, h.spares⟩
  · cases hf

/-- The functions native code calls honour the convention. -/
theorem Native.call_keeps (clobber : Native.Clobber) (f : Callee) (regs : Gp → U64) (s : State)
    (regs' : Gp → U64) (s' : State) (h : (Native.call clobber f regs).run s = .ok regs' s') :
    ∀ r ∈ calleeSaved, regs' r = regs r := by
  have hsaved : ∀ (t : State) r, r ∈ calleeSaved →
      (if decide (r ∈ [Gp.rbx, .rbp, .rsp, .r12, .r13, .r14, .r15]) then regs r else clobber f t r) = regs r :=
    fun t r hr ↦ if_pos (decide_eq_true hr)
  change Native.call clobber f regs s = .ok regs' s' at h
  unfold Native.call at h
  intro r hr
  cases f with
  | read T =>
    dsimp only at h
    split at h
    · cases h
      rw [Function.update_of_ne]
      · exact hsaved _ r hr
      · rintro rfl
        exact absurd hr (by decide)
    · cases h
  | write T =>
    dsimp only at h
    split at h
    · cases h
      exact hsaved _ r hr
    · cases h

/-- Native code is a function of the calling convention: where it returns, in whatever mode it was
translated and whatever its callees leave in the registers that are theirs, the stack and the callee-saved
registers are as it found them. -/
theorem native_convention {trace : List Inst} {virt : Bool} {code : NativeCode}
    (hf : getFunc trace virt = some code) (layout : Layout) (clobber : Native.Clobber) {fuel : ℕ}
    {m m' : Machine State}
    (hrun : (X86.run (Native.env layout clobber) .outOfFuel code fuel code).run m = .ok () m') :
    m'.stack = m.stack ∧ ∀ r ∈ calleeSaved, m'.regs r = m.regs r := by
  obtain ⟨hbal, hspares⟩ := orderly_getFunc hf
  exact run_frames (Native.call_keeps clobber) hspares hbal hrun

/-- `addi x5, x0, 7`, `lw x6, 1(x5)`, `sub x7, x5, x6` and `jal x0, 0`, translated for paging. -/
theorem native_convention_load :
    let insts := [genI ⟨.ADDI, by decide⟩ 5 0 7, genI ⟨.LW, by decide⟩ 6 5 1, genR ⟨.SUB, by decide⟩ 7 5 6,
      genJ ⟨.JAL, by decide⟩ 0 0]
    let m := Native.start ⟨0, 0x1000⟩ (fun _ ↦ 0) (atEntry Regs.fill0).world
    ∃ code m', getFunc insts true = some code ∧
      (X86.run (Native.env ⟨0, 0x1000⟩ fun _ _ _ ↦ 0) .outOfFuel code 30 code).run m = .ok () m' ∧
      m'.stack = m.stack ∧ m'.regs .rbx = m.regs .rbx ∧ m'.regs .r12 = m.regs .r12 := by
  intro insts m
  obtain ⟨code, hf, hret⟩ : ∃ code, getFunc insts true = some code ∧
      (X86.run (Native.env ⟨0, 0x1000⟩ fun _ _ _ ↦ 0) .outOfFuel code 30 code).run' m = some () :=
    ⟨_, rfl, by decide +kernel⟩
  cases hr : (X86.run (Native.env ⟨0, 0x1000⟩ fun _ _ _ ↦ 0) .outOfFuel code 30 code).run m with
  | ok u m' =>
    obtain ⟨hstack, hsaved⟩ := native_convention hf ⟨0, 0x1000⟩ (fun _ _ _ ↦ 0) hr
    exact ⟨code, m', hf, hr, hstack, hsaved .rbx (by decide), hsaved .r12 (by decide)⟩
  | error e m' =>
    delta EStateM.run' at hret
    rw [hr] at hret
    cases hret

end RiscvSim
