import RiscvSim.Lifetime
import RiscvSim.PageTable

namespace RiscvSim

open Isa Ir X86 Results Translator Native TranslateInst

/-- With `x` in `rdi` neither the program counter nor the instruction count is within reach. -/
def Wild (layout : Layout) (size : ℕ) (x : U64) : Prop := ∀ s : State, s.mmu.pmem_size_ = size →
  load layout (x + offsetofPc) 32 s = .error .undefinedBehaviour ∧
    load layout (x + offsetofInsts) 64 s = .error .undefinedBehaviour

section

variable {layout : Layout}

theorem load_outside {addr : U64} {w : ℕ} {s : State} (hs : 152 ≤ (addr - layout.state).toNat)
    (hg : s.mmu.pmem_size_ < (addr - layout.mem).toNat + w / 8) :
    load layout addr w s = .error .undefinedBehaviour := by
  rw [load, show placeOf layout addr = some (.guest (addr - layout.mem).toNat) from
    if_neg (Nat.not_lt.mpr hs)]
  exact if_neg (Nat.not_le.mpr hg)

theorem load_unaligned {addr : U64} {w : ℕ} (h : fieldAt (addr - layout.state).toNat = none)
    (hlt : (addr - layout.state).toNat < 152) (s : State) :
    load layout addr w s = .error .undefinedBehaviour := by
  rw [load, show placeOf layout addr = none from (if_pos hlt).trans h]

theorem wild_of_far {size : ℕ} (hsize : size ≤ 2 ^ 63) {x : U64} (hm : 2 ^ 63 ≤ (x - layout.mem).toNat)
    (hm' : (x - layout.mem).toNat < 2 ^ 64 - 144) (hs : 24 ≤ (x - layout.state).toNat)
    (hs' : (x - layout.state).toNat < 2 ^ 64 - 144) : Wild layout size x := by
  intro s hsz
  have hpc : (offsetofPc).toNat = 128 := rfl
  have hinsts : (offsetofInsts).toNat = 144 := rfl
  constructor <;> refine load_outside ?_ ?_ <;> bv_omega

/-- A memory of at most half the address space, and no allocation is larger, leaves room for
two pointers of which one is far from the `State` object. -/
theorem exists_wild (layout : Layout) (size : ℕ) : ∃ x, Wild layout size x := by
  by_cases hsize : size ≤ 2 ^ 63
  · by_cases hnear : 24 ≤ (layout.mem + 0x8000000000000000#64 - layout.state).toNat ∧
        (layout.mem + 0x8000000000000000#64 - layout.state).toNat < 2 ^ 64 - 144
    · exact ⟨_, wild_of_far hsize (by bv_omega) (by bv_omega) hnear.1 hnear.2⟩
    · exact ⟨layout.mem + 0xc000000000000000#64, wild_of_far hsize (by bv_omega) (by bv_omega)
        (by bv_omega) (by bv_omega)⟩
  · refine ⟨layout.state + 1, fun s _ ↦ ⟨load_unaligned ?_ ?_ s, load_unaligned ?_ ?_ s⟩⟩
    all_goals
      rw [BitVec.add_assoc, add_sub_self]
      decide

end

def leaves (x : U64) : Clobber := fun _ _ _ ↦ x

section

variable (layout : Layout) (x : U64)

/-- Straight code that does not get `x` out of `rdi`. -/
def Strays (c : NativeCode) : Prop := Straight c ∧ ∀ m m',
  (block (env layout (leaves x)) c).run m = .ok () m' → m.regs .rdi = x → m'.regs .rdi = x

/-- Straight code that gets `x` into `rdi`. -/
def Strands (c : NativeCode) : Prop := Straight c ∧ ∀ m m',
  (block (env layout (leaves x)) c).run m = .ok () m' → m'.regs .rdi = x

def Sinks (size : ℕ) (c : NativeCode) : Prop := Straight c ∧ ∀ m m', m.regs .rdi = x →
  m.world.mmu.pmem_size_ = size → (block (env layout (leaves x)) c).run m ≠ .ok () m'

end

section

variable {layout : Layout} {x : U64} {size : ℕ} {c d : NativeCode} {m m' : Machine State}

theorem block_size (h : (block (env layout (leaves x)) c).run m = .ok () m') :
    m'.world.mmu.pmem_size_ = m.world.mmu.pmem_size_ := by
  have := stable_size.refl
  have := stable_size.trans
  have hkeeps : Results.Keeps (fun m m' : Machine State ↦
      m'.world.mmu.pmem_size_ = m.world.mmu.pmem_size_) (block (env layout (leaves x)) c) :=
    block_world (R := fun s s' : State ↦ s'.mmu.pmem_size_ = s.mmu.pmem_size_)
      (fun _ _ _ _ _ hs ↦ store_stable stable_size.data (fun _ _ ↦ rfl) hs)
      (call_stable stable_size.data (leaves x)) c
  exact hkeeps.of_ok h

theorem rdi_call {f : Callee} (h : (exec (env layout (leaves x)) (.call f)).run m = .ok () m') :
    m'.regs .rdi = x := by
  obtain ⟨regs, s, hc, rfl⟩ := exec_call_ok h
  change call (leaves x) f m.regs m.world = .ok regs s at hc
  unfold call at hc
  cases f with
  | read T =>
    dsimp only at hc
    split at hc
    · cases hc
      rfl
    · cases hc
  | write T =>
    dsimp only at hc
    split at hc
    · cases hc
      rfl
    · cases hc

theorem X86.Assigns.rdi {clobber : Clobber} {dst : Operand} (hd : Writable dst)
    (h : Assigns (env layout clobber) dst m m') : m'.regs .rdi = m.regs .rdi := by
  cases h with
  | none f => rfl
  | some v h f =>
    cases dst with
    | imm w => cases h
    | reg g w =>
      cases h
      exact m.regs_set_of_ne (Ne.symm hd) v
    | mem a =>
      change (store layout (m.addr a) v m.world).map _ = _ at h
      cases hs : store layout (m.addr a) v m.world with
      | error e =>
        rw [hs] at h
        cases h
      | ok s =>
        rw [hs] at h
        cases h
        rfl

theorem exec_strays {i : X86.Inst Callee} (hi : Gentle i) (hx : m.regs .rdi = x)
    (h : (exec (env layout (leaves x)) i).run m = .ok () m') : m'.regs .rdi = x := by
  cases i with
  | call f => exact rdi_call h
  | bin id dst src => exact ((execBin_assigns (execBin_of_exec h)).rdi hi).trans hx
  | set c dst =>
    rw [exec, run_bind_of_ok (EStateM.run_get m)] at h
    exact ((execSet_assigns (run_set_lift h)).rdi hi).trans hx
  | mul src =>
    rw [exec, run_bind_of_ok (EStateM.run_get m)] at h
    obtain ⟨w, p, q, rfl⟩ := execMul_ok (run_set_lift h)
    exact hx
  | push src =>
    rw [exec, run_bind_of_ok (EStateM.run_get m)] at h
    obtain ⟨v, rfl⟩ := execPush_ok (run_set_lift h)
    exact hx
  | pop dst =>
    rw [exec, run_bind_of_ok (EStateM.run_get m)] at h
    obtain ⟨r, w, v, stack, rfl, rfl⟩ := execPop_ok (run_set_lift h)
    exact (m.regs_set_of_ne (Ne.symm hi) v).trans hx
  | jcc | jmp | ret => exact hi.elim

theorem Mild.strays (h : Mild c) : Strays layout x c := by
  refine ⟨h.straight, fun m m' hb hx ↦ ?_⟩
  induction c generalizing m with
  | nil =>
    cases hb
    exact hx
  | cons item c ih =>
    obtain ⟨i, rfl, hi⟩ := h item List.mem_cons_self
    obtain ⟨u, m₁, he, hb'⟩ := run_bind_eq_ok.mp hb
    exact ih (fun y hy ↦ h y (List.mem_cons_of_mem _ hy)) m₁ hb' (exec_strays hi hx he)

namespace Strays

theorem append (hc : Strays layout x c) (hd : Strays layout x d) : Strays layout x (c ++ d) := by
  refine ⟨hc.1.append hd.1, fun m m' hb hx ↦ ?_⟩
  obtain ⟨m₁, h₁, h₂⟩ := block_append_ok hb
  exact hd.2 m₁ m' h₂ (hc.2 m m₁ h₁ hx)

theorem sinks (hc : Strays layout x c) (hd : Sinks layout x size d) : Sinks layout x size (c ++ d) := by
  refine ⟨hc.1.append hd.1, fun m m' hx hsize hb ↦ ?_⟩
  obtain ⟨m₁, h₁, h₂⟩ := block_append_ok hb
  exact hd.2 m₁ m' (hc.2 m m₁ h₁ hx) ((block_size h₁).trans hsize) h₂

end Strays

namespace Strands

theorem strays (hc : Strands layout x c) : Strays layout x c := ⟨hc.1, fun m m' hb _ ↦ hc.2 m m' hb⟩

theorem before (hc : Straight c) (hd : Strands layout x d) : Strands layout x (c ++ d) := by
  refine ⟨hc.append hd.1, fun m m' hb ↦ ?_⟩
  obtain ⟨m₁, -, h₂⟩ := block_append_ok hb
  exact hd.2 m₁ m' h₂

theorem after (hc : Strands layout x c) (hd : Strays layout x d) : Strands layout x (c ++ d) := by
  refine ⟨hc.1.append hd.1, fun m m' hb ↦ ?_⟩
  obtain ⟨m₁, h₁, h₂⟩ := block_append_ok hb
  exact hd.2 m₁ m' h₂ (hc.2 m m₁ h₁)

theorem call (f : Callee) : Strands layout x (X86.emit (.call f)) := by
  refine ⟨.emit rfl, fun m m' hb ↦ ?_⟩
  obtain ⟨u, m₁, he, hb'⟩ := run_bind_eq_ok.mp hb
  cases hb'
  exact rdi_call he

end Strands

namespace Sinks

theorem append (hc : Sinks layout x size c) (hd : Straight d) : Sinks layout x size (c ++ d) := by
  refine ⟨hc.1.append hd, fun m m' hx hsize hb ↦ ?_⟩
  obtain ⟨m₁, h₁, -⟩ := block_append_ok hb
  exact hc.2 m m₁ hx hsize h₁

theorem ends (hc : Sinks layout x size c) (hx : m.regs .rdi = x)
    (hsize : m.world.mmu.pmem_size_ = size) {code rest : NativeCode} {n : ℕ} {P : Machine State → Prop} :
    Ends (env layout (leaves x)) .outOfFuel code n (c ++ rest) m P :=
  .straight hc.1 fun m₁ hb ↦ absurd hb (hc.2 m m₁ hx hsize)

end Sinks

theorem add_sinks {a : X86.Mem} {v : U64} (ha : ∀ m : Machine State, m.regs .rdi = x →
      m.world.mmu.pmem_size_ = size → load layout (m.addr a) a.width m.world = .error .undefinedBehaviour) :
    Sinks layout x size [.inst (.bin .add (.mem a) (.imm v))] := by
  refine ⟨.emit (i := .bin .add (.mem a) (.imm v)) rfl, fun m m' hx hsize hb ↦ ?_⟩
  obtain ⟨u, m₁, he, -⟩ := run_bind_eq_ok.mp hb
  have hbin := execBin_of_exec he
  change (do
    let old ← load layout (m.addr a) a.width m.world
    _ : Except Stop (Machine State)) = _ at hbin
  rw [ha m hx hsize] at hbin
  cases hbin

variable (hwild : Wild layout size x)

include hwild

theorem sinks_addPC (v : U64) : Sinks layout x size (addPC v) := by
  refine add_sinks fun m hx hsize ↦ ?_
  change load layout (m.regs .rdi + offsetofPc) 32 m.world = _
  rw [hx]
  exact (hwild m.world hsize).1

theorem sinks_count (trace : List Inst) : Sinks layout x size [.inst (countInst trace)] := by
  refine add_sinks fun m hx hsize ↦ ?_
  change load layout (m.regs .rdi + offsetofInsts) 64 m.world = _
  rw [hx]
  exact (hwild m.world hsize).2

end

section

variable {layout : Layout} {x : U64} {tr : Translator} {a : Allocation} (h : tr.Allocated a)
  (hv : tr.isVirtualAddressing = true) (inst : Inst) (T : AccessAs)

include h

theorem strands_mmuLoad : Appends (Strands layout x) (translateMMULoad inst T) tr := by
  have hcall : Appends (Strands layout x) (do
      Translator.emit (.call (.read T))
      restoreAllRegs) tr :=
    Appends.append (P := Strands layout x) ⟨_, fun _ ↦ rfl, .call _⟩
      (mild_restoreAllRegs h) fun _ _ hc hd ↦ hc.after hd.strays
  refine straight_saveAllRegs.append (.RS1 ?_) fun _ _ ↦ .before
  refine (straight_emit rfl).append ?_ fun _ _ ↦ .before
  exact (straight_emit rfl).append hcall fun _ _ ↦ .before

theorem strands_mmuStore : Appends (Strands layout x) (translateMMUStore inst T) tr := by
  have hcall : Appends (Strands layout x) (do
      Translator.emit (.call (.write T))
      restoreAllRegs) tr :=
    Appends.append (P := Strands layout x) ⟨_, fun _ ↦ rfl, .call _⟩
      (mild_restoreAllRegs h) fun _ _ hc hd ↦ hc.after hd.strays
  refine straight_saveAllRegs.append (.RS1 ?_) fun _ _ ↦ .before
  refine (straight_emit rfl).append ?_ fun _ _ ↦ .before
  refine (straight_emit rfl).append (.RS2 ?_) fun _ _ ↦ .before
  exact (straight_emit rfl).append hcall fun _ _ ↦ .before

include hv

theorem strands_load {result : Operand → Tr Unit} {access : Operand → Operand → Tr Unit}
    (hresult : ∀ rd, Writable rd → Appends Mild (result rd) tr) :
    Appends (Strands layout x) (translateLoad inst T result access) tr := by
  have hpaged : Appends (Strands layout x) (do
      translateMMULoad inst T
      result (← TranslateInst.RD inst)) tr :=
    (strands_mmuLoad h inst T).append (.RD (hresult _ (h.uses.writable _)))
      fun _ _ hc hd ↦ hc.after hd.strays
  refine hpaged.congr_run fun pre ↦ ?_
  change (if tr.isVirtualAddressing = true then _ else _ : Tr Unit).run _ = _
  rw [if_pos hv]

theorem strands_store : Appends (Strands layout x) (translateStore inst T) tr := by
  refine (strands_mmuStore h inst T).congr_run fun pre ↦ ?_
  change (if tr.isVirtualAddressing = true then _ else _ : Tr Unit).run _ = _
  rw [if_pos hv]

theorem strands_translate {func : TranslateFunc} (ha : accesses func = true) :
    Appends (Strands layout x) (func.translate inst) tr := by
  have hbin : ∀ id dst src, Writable dst → Appends Mild (Translator.emit (.bin id dst src)) tr :=
    fun id dst src hd ↦ .emit hd
  have hmove : ∀ dst src, Writable dst → Appends Mild (translateMove dst src) tr :=
    fun dst src hd ↦ .move hd src
  cases func with
  | TranslateLB | TranslateLH => exact strands_load h hv inst _ fun rd ↦ hbin _ rd _
  | TranslateLW | TranslateLBU | TranslateLHU => exact strands_load h hv inst _ fun rd ↦ hmove rd _
  | TranslateSB | TranslateSH | TranslateSW => exact strands_store h hv inst _
  | _ => cases ha

end

def IsAccess (inst : Inst) : Prop := inst.getOpcode = .LOAD ∨ inst.getOpcode = .STORE

instance : DecidablePred IsAccess := fun inst ↦ by
  unfold IsAccess
  infer_instance

theorem accesses_table : ∀ desc ∈ cmd_desc, ∀ func ∈ desc.translate_func,
    accesses func = (desc.opcode == .LOAD || desc.opcode == .STORE) := by decide

theorem accesses_iff {inst : Inst} {func : TranslateFunc}
    (hf : (getCmdDesc inst.cmd_).translate_func = some func) : accesses func = true ↔ IsAccess inst := by
  rw [accesses_table (getCmdDesc inst.cmd_) (List.get_mem _ _) func hf, Bool.or_eq_true, beq_iff_eq,
    beq_iff_eq]
  rfl

theorem isTerminator_of_isAccess {inst : Inst} (h : IsAccess inst) : inst.isTerminator = false := by
  obtain ⟨imm, rs1, rs2, rd, c, hc⟩ := inst
  cases c <;> first | exact absurd rfl hc | rfl | (rcases h with h | h <;> cases h)

section

variable (layout : Layout) (x : U64)

/-- Code that strands if its instruction reaches the memory. -/
def Mishaps (access : Prop) (c : NativeCode) : Prop :=
  Strays layout x c ∧ (access → Strands layout x c)

variable {layout : Layout} {x : U64}

theorem extends_mishaps {inst : Inst} (hs : inst.isTranslationSupported = true)
    (ht : inst.isTerminator = false) {tr : Translator} {a : Allocation} (h : tr.Allocated a)
    (hv : tr.isVirtualAddressing = true) :
    Extends (Mishaps layout x (IsAccess inst)) tr ((around inst).run tr).2 := by
  obtain ⟨func, hf, htr, hcond⟩ := translate_func hs
  have hbr := hcond.mpr (opcode_of_not_isTerminator ht)
  refine extends_around (fun c d hc hd ↦ ⟨hc.strays.append hd.1, fun hi ↦ .before hc.straight (hd.2 hi)⟩)
    (fun c d hc hd ↦ ⟨hc.1.append hd.strays, fun hi ↦ (hc.2 hi).after hd.strays⟩) h
    fun tr' a' h' hv' ↦ ?_
  rw [htr]
  cases ha : accesses func with
  | true => exact (strands_translate h' (hv'.trans hv) inst ha).mono fun c hc ↦ ⟨hc.strays, fun _ ↦ hc⟩
  | false =>
    refine (mild_translate h'.uses inst hbr ha).mono fun c hc ↦ ⟨hc.strays, fun hi ↦ ?_⟩
    rw [(accesses_iff hf).mpr hi] at ha
    cases ha

theorem jump_table : ∀ desc ∈ cmd_desc, ∀ func ∈ desc.translate_func,
    (desc.opcode = .JAL → func = .TranslateJAL) ∧ (desc.opcode = .JALR → func = .TranslateJALR) := by
  decide

theorem translate_terminator {inst : Inst} (hs : inst.isTranslationSupported = true)
    (ht : inst.isTerminator = true) (hb : inst.getOpcode ≠ .BRANCH) :
    inst.translate = translateJAL inst ∨ inst.translate = translateJALR inst := by
  obtain ⟨func, hf, htr, -⟩ := translate_func hs
  obtain ⟨hjal, hjalr⟩ := jump_table (getCmdDesc inst.cmd_) (List.get_mem _ _) func hf
  rw [Inst.isTerminator] at ht
  split at ht
  · next hfence =>
    obtain ⟨imm, rs1, rs2, rd, c, hc⟩ := inst
    cases hfence
    cases hf
  · split at ht
    · next h => exact absurd h hb
    · next h =>
      rw [hjalr h] at htr
      exact .inr htr
    · next h =>
      rw [hjal h] at htr
      exact .inl htr
    · cases ht

theorem sinks_translate {size : ℕ} (hwild : Wild layout size x) {inst : Inst}
    (hs : inst.isTranslationSupported = true) (ht : inst.isTerminator = true)
    (hb : inst.getOpcode ≠ .BRANCH) {tr : Translator} {a : Allocation} (huses : tr.Uses a) :
    Appends (Sinks layout x size) inst.translate tr := by
  have hrd := huses.writable inst.getRd
  have hadd : ∀ v, Appends (Sinks layout x size) (Translator.emit (.bin .add PC (.imm v))) tr :=
    fun v ↦ ⟨addPC v, fun _ ↦ rfl, sinks_addPC hwild v⟩
  have hbefore : ∀ {y z : Tr Unit}, Appends Mild y tr → Appends (Sinks layout x size) z tr →
      Appends (Sinks layout x size) (do y; z) tr :=
    fun hy hz ↦ hy.append hz fun _ _ hc ↦ hc.strays.sinks
  have hjal : Appends (Sinks layout x size) (translateJAL inst) tr := by
    refine .OFFSET ?_
    split
    · exact .RD (hbefore (.move writable_tmp1 _) (hbefore (.move hrd _) (hbefore (.emit hrd) (hadd _))))
    · exact hadd _
  have hjalr : Appends (Sinks layout x size) (translateJALR inst) tr := by
    refine .OFFSET ((hadd _).append (Q := Mild) ?_ fun _ _ hc hd ↦ hc.append hd.straight)
    exact .seq (.move writable_tmp1 _) (.RD (.seq (.move hrd _) (.RS1 (.seq (.move writable_tmp1 _)
      (.seq (.emit writable_tmp1) (.seq (.emit writable_tmp1) (.move writable_pc _)))))))
  rcases translate_terminator hs ht hb with h | h
  · rw [h]
    exact hjal
  · rw [h]
    exact hjalr

theorem ends_branches {size : ℕ} (hwild : Wild layout size x) {back : Prop} {trace : List Inst}
    {body c : NativeCode} (hbody : Straight body) (hc : Branches back c) (n : ℕ) {m : Machine State}
    (hx : m.regs .rdi = x) (hsize : m.world.mmu.pmem_size_ = size) :
    Ends (env layout (leaves x)) .outOfFuel (framed trace (body ++ c)) n (c ++ [.inst .ret]) m
      fun _ ↦ False := by
  obtain ⟨pre, cond, v, w, post, hpre, hpost, hback, hforward⟩ := hc
  have hstrays : Strays layout x pre := hpre.strays
  have hpc : ∀ (v : U64) {code rest : NativeCode} {m : Machine State} {k : ℕ}, m.regs .rdi = x →
      m.world.mmu.pmem_size_ = size →
      Ends (env layout (leaves x)) .outOfFuel code k (addPC v ++ rest) m fun _ ↦ False :=
    fun v _ _ _ _ hx hs ↦ (sinks_addPC hwild v).ends hx hs
  by_cases hb : back
  · rw [hback hb]
    have hstart : after 0 (framed trace (body ++ (pre ++ .inst (.jcc cond 0) :: (addPC v ++ post)))) =
        some ([.inst (countInst trace)] ++ (body ++ (pre ++ .inst (.jcc cond 0) :: (addPC v ++ post)) ++
          [.inst .ret])) := rfl
    generalize framed trace _ = code at hstart ⊢
    rw [List.append_assoc, List.cons_append, List.append_assoc]
    refine .straight hpre.straight fun m₁ hb₁ ↦ ?_
    have hx₁ := hstrays.2 m m₁ hb₁ hx
    have hsize₁ := (block_size hb₁).trans hsize
    exact .jcc hstart (fun _ _ _ k _ ↦ (sinks_count hwild trace).ends hx₁ hsize₁)
      fun _ _ _ ↦ hpc v hx₁ hsize₁
  · rw [hforward hb]
    have hlabels := framed_labels trace cond post (hbody.append hpre.straight)
      (mild_addPC v).straight (mild_addPC w).straight
    have hassoc : body ++ (pre ++ twoWay cond 1 2 (addPC v) (addPC w) ++ post) =
        body ++ pre ++ twoWay cond 1 2 (addPC v) (addPC w) ++ post := by
      simp only [List.append_assoc]
    rw [hassoc]
    generalize framed trace _ = code at hlabels ⊢
    rw [List.append_assoc, List.append_assoc]
    refine .straight hpre.straight fun m₁ hb₁ ↦ ?_
    have hx₁ := hstrays.2 m m₁ hb₁ hx
    have hsize₁ := (block_size hb₁).trans hsize
    exact .twoWay (mild_addPC v).straight (mild_addPC w).straight hlabels.1 hlabels.2
      (fun _ _ _ m₂ hb₂ ↦ absurd hb₂ ((sinks_addPC hwild v).2 m₁ m₂ hx₁ hsize₁))
      fun _ _ _ m₂ hb₂ ↦ absurd hb₂ ((sinks_addPC hwild w).2 m₁ m₂ hx₁ hsize₁)

/-- After a call that changes `rdi` the code of a trace does not return. -/
theorem paged_stuck {size : ℕ} (hwild : Wild layout size x) {trace : List Inst} (ht : IsTrace trace)
    (haccess : ∃ inst ∈ trace, IsAccess inst) {code : NativeCode} (hf : getFunc trace true = some code)
    (n : ℕ) {m : Machine State} (hsize : m.world.mmu.pmem_size_ = size) :
    Ends (env layout (leaves x)) .outOfFuel code n code m fun _ ↦ False := by
  have hsup := supported_of_getFunc hf
  obtain ⟨body, last, rfl, hlast, hbody⟩ := ht.split
  have hsl := hsup last (List.mem_append_right _ (List.mem_singleton_self last))
  obtain ⟨tr₁, h₁, hrun⟩ := translateAll_extends
    (P := fun insts ↦ Mishaps layout x (∃ inst ∈ insts, IsAccess inst))
    (Q := fun inst ↦ Mishaps layout x (IsAccess inst)) ⟨Mild.nil.strays, by simp⟩
    (fun inst rest c d hc hd ↦ ⟨hc.1.append hd.1, fun h ↦ by
      obtain ⟨i, hi, ha⟩ := h
      rcases List.mem_cons.mp hi with rfl | hi
      · exact (hc.2 ha).after hd.1
      · exact .before hc.1.1 (hd.2 ⟨i, hi, ha⟩)⟩)
    (allocated_entered (body ++ [last]) true)
    fun inst hi tr' a' h' hv ↦ extends_mishaps (hsup inst (List.mem_append_left _ hi)) (hbody inst hi) h' hv
  have hmem : ∃ inst ∈ body, IsAccess inst := by
    obtain ⟨inst, hi, ha⟩ := haccess
    rcases List.mem_append.mp hi with hi | hi
    · exact ⟨inst, hi, ha⟩
    · rw [List.mem_singleton.mp hi] at ha
      exact absurd hlast (by rw [isTerminator_of_isAccess ha]; exact Bool.false_ne_true)
  obtain ⟨⟨c₁, hc₁, -, hstrands⟩, ⟨a₁, hal⟩, hsame⟩ := h₁
  have hstrand := hstrands hmem
  have hnext : { tr₁ with cur_inst_ := (entered (body ++ [last]) true).cur_inst_ + body.length }.Allocated
      a₁ := ⟨hal.mapping, hal.nodup, hal.free⟩
  have hend : ((translateAll Inst.translate (body ++ [last])).run
      (entered (body ++ [last]) true)).2.code_ = ((around last).run { tr₁ with
        cur_inst_ := (entered (body ++ [last]) true).cur_inst_ + body.length }).2.code_ := by
    rw [translateAll_append, hrun]
    rfl
  -- the label, the count and the body, whatever they do, come first
  have hfirst : ∀ c, (∀ m, m.regs .rdi = x → m.world.mmu.pmem_size_ = size →
      Ends (env layout (leaves x)) .outOfFuel (framed (body ++ [last]) (c₁ ++ c)) n
        (c ++ [.inst .ret]) m fun _ ↦ False) →
      Ends (env layout (leaves x)) .outOfFuel (framed (body ++ [last]) (c₁ ++ c)) n
        (framed (body ++ [last]) (c₁ ++ c)) m fun _ ↦ False := by
    intro c hlast
    refine .label (.straight (straight_count _) fun m₁ h₁ ↦ ?_)
    rw [List.append_assoc]
    refine .straight hstrand.1 fun m₂ h₂ ↦ hlast m₂ (hstrand.2 m₁ m₂ h₂) ?_
    exact (block_size h₂).trans ((block_size h₁).trans hsize)
  by_cases hb : last.getOpcode = .BRANCH
  · obtain ⟨c, hc, hbranch⟩ := branch_around hsl hb hnext
      (by rw [hsame]; rfl) (by rw [hsame]; rfl)
    rw [getFunc_eq hf (c := c₁ ++ c) (by rw [hend, hc, hc₁, List.append_assoc])]
    exact hfirst c fun m hx hs ↦ ends_branches hwild hstrand.1 hbranch n hx hs
  · obtain ⟨⟨c, hc, hsinks⟩, -, -⟩ := extends_around (P := Sinks layout x size)
      (fun c d hc ↦ hc.strays.sinks) (fun c d hc hd ↦ hc.append hd.straight) hnext
      fun tr' a' h' _ ↦ sinks_translate hwild hsl hlast hb h'.uses
    rw [getFunc_eq hf (c := c₁ ++ c) (by rw [hend, hc, hc₁, List.append_assoc])]
    exact hfirst c fun m hx hs ↦ hsinks.ends hx hs

end

/-- Whatever the callees leave in the registers they may change, the code returns, with the
registers, the program counter and the memory that interpreting the trace leaves. -/
def MatchesInterpreter (layout : Layout) (regs : Gp → U64) (trace : List Inst) (code : NativeCode)
    (s : State) : Prop :=
  ∀ clobber, ∃ fuel m ks s',
    (X86.run (env layout clobber) .outOfFuel code fuel code).run (start layout regs s) = .ok () m ∧
      (execFrom 0 trace).run s = .ok ks s' ∧
      m.world.regs = s'.regs ∧ m.world.pc = s'.pc ∧ m.world.mmu.pmem_ = s'.mmu.pmem_

section

variable {trace : List Inst} (ht : IsTrace trace) (haccess : ∃ inst ∈ trace, IsAccess inst)
  {code : NativeCode} (hf : getFunc trace true = some code) (layout : Layout) (regs : Gp → U64) (s : State)

include ht haccess hf

theorem exists_no_return : ∃ clobber, ∀ fuel m,
    (X86.run (env layout clobber) .outOfFuel code fuel code).run (start layout regs s) ≠ .ok () m := by
  obtain ⟨x, hwild⟩ := exists_wild layout s.mmu.pmem_size_
  refine ⟨leaves x, fun fuel m hrun ↦ ?_⟩
  exact paged_stuck hwild ht haccess hf fuel (m := start layout regs s) rfl fuel le_rfl m hrun

/-- The code of a trace that loads or stores, translated while addresses are virtual, matches
the interpreter in no state: `rdi` does not survive the first call. -/
theorem paged_native_never : ¬ MatchesInterpreter layout regs trace code s := by
  intro h
  obtain ⟨clobber, hno⟩ := exists_no_return ht haccess hf layout regs s
  obtain ⟨fuel, m, -, -, hrun, -⟩ := h clobber
  exact hno fuel m hrun

end

def oneLoad : List Inst := [genI ⟨.LW, by decide⟩ 1 0 4, Sim.selfJumpInst]

theorem isTrace_oneLoad : IsTrace oneLoad := ⟨rfl, rfl⟩

def mapped : State := { onePage (fun _ ↦ 0) (.new 1) with mmu := MMU.oddFrame }

theorem paged_native_never_oneLoad :
    ¬ MatchesInterpreter ⟨0, 0⟩ (fun _ ↦ 0) oneLoad (emitTrace Inst.translate oneLoad (init oneLoad true)).2.code_
      mapped :=
  paged_native_never isTrace_oneLoad (by decide) rfl _ _ _

theorem oneLoad_diverges : mapped.mmu.isVirtualAddressing = true ∧
    (∃ ks s', (execFrom 0 oneLoad).run mapped = .ok ks s') ∧
      ∃ code, getFunc oneLoad true = some code ∧
        ¬ MatchesInterpreter ⟨0, 0⟩ (fun _ ↦ 0) oneLoad code mapped := by
  refine ⟨by decide, ⟨_, _, by rfl⟩, _, rfl, fun h ↦ ?_⟩
  obtain ⟨clobber, hno⟩ := exists_no_return isTrace_oneLoad (by decide) rfl ⟨0, 0⟩
    (fun _ ↦ 0) mapped
  obtain ⟨fuel, m, -, -, hrun, -⟩ := h clobber
  exact hno fuel m hrun

end RiscvSim
