import RiscvSim.Bare
import RiscvSim.Translate

namespace RiscvSim

open Isa Ir State Results

namespace LRUCache

variable {σ κ α : Type} [DecidableEq κ]

theorem insert_keeps {cache : Member σ κ α} {R : σ → σ → Prop} [Std.Refl R] [IsTrans σ R]
    (hset : ∀ c s, R s (cache.set c s)) (key : κ) {make : EStateM Stop σ α} (hmake : Keeps R make) :
    Keeps R (insert cache key make) := by
  have hmod : ∀ f : σ → LRUCache κ α, Keeps R (modify fun s ↦ cache.set (f s) s : EStateM Stop σ Unit) :=
    fun f ↦ Keeps.modify fun s ↦ hset _ s
  refine Keeps.bind (fun s ↦ refl s) fun s ↦ ?_
  dsimp only
  split
  · exact (Keeps.lift _).bind fun c ↦ (hmod _).bind fun _ ↦ hmake.bind fun val ↦
      Keeps.bind (fun s ↦ refl s) fun _ ↦ (hmod _).bind fun _ ↦ Keeps.pure _
  · exact (Keeps.lift _).bind fun c ↦ (hmod _).bind fun _ ↦ Keeps.pure _

end LRUCache

namespace MMU

/-- The accesses to memory leave its size and `satp` alone. -/
structure SameMode (m m' : MMU) : Prop where
  size : m'.pmem_size_ = m.pmem_size_
  satp : m'.satp = m.satp

instance : Std.Refl SameMode := ⟨fun _ ↦ ⟨rfl, rfl⟩⟩

instance : IsTrans MMU SameMode := ⟨fun _ _ _ h h' ↦ ⟨h'.size.trans h.size, h'.satp.trans h.satp⟩⟩

theorem SameMode.virt {m m' : MMU} (h : SameMode m m') :
    m'.isVirtualAddressing = m.isVirtualAddressing := by
  rw [isVirtualAddressing, isVirtualAddressing, h.satp]

section

variable {R : MMU → MMU → Prop} [Std.Refl R] [IsTrans MMU R]
  (hwrite : ∀ (m : MMU) (p n : ℕ) (v : BitVec (8 * n)), R m (m.writeMem p v))

include hwrite

omit [IsTrans MMU R] in
theorem translate_keeps (va : U32) (acc : AccessType) : Keeps R (translate va acc) := by
  intro mmu
  cases hv : mmu.isVirtualAddressing with
  | false =>
    have h : (translate va acc).run mmu = .ok (va.setWidth 64) mmu := by
      rw [translate, run_bind_of_ok (EStateM.run_get mmu),
        if_neg (by rw [hv]; exact Bool.false_ne_true)]
      rfl
    rw [h]
    exact refl mmu
  | true =>
    rw [translate_run hv]
    cases mmu.leafOf va acc with
    | error e => exact refl mmu
    | ok r => exact hwrite mmu _ 4 _

theorem physAddr_keeps {tlb : LRUCache.Member MMU U32 PhysAddr} (htlb : ∀ c m, R m (tlb.set c m))
    (va : U32) (acc : AccessType) : Keeps R (physAddr tlb va acc) := by
  refine Keeps.bind (fun m ↦ refl m) fun m ↦ Keeps.ite ?_ (Keeps.pure _)
  refine (LRUCache.insert_keeps htlb va (translate_keeps hwrite va acc)).bind fun res ↦ ?_
  refine Keeps.bind (fun m ↦ refl m) fun m' ↦ ?_
  split
  · exact Keeps.pure _
  · exact Keeps.throw _

theorem load_keeps {n : ℕ} {va : U32} {instRead : Bool}
    (htlb : ∀ c m, R m ((if instRead then instTLB else dataTLB).set c m)) :
    Keeps R (load n va instRead) := by
  have hrest : ∀ pa, Keeps R (do
      let ptr ← lift ((← get).getMemPtr n pa)
      return (← get).readMem n ptr : EStateM Stop MMU (BitVec (8 * n))) := fun pa ↦
    Keeps.bind (fun m ↦ refl m) fun m ↦ (Keeps.lift _).bind fun ptr ↦ Keeps.gets _
  cases instRead with
  | true => exact (physAddr_keeps hwrite htlb va .EXEC).bind hrest
  | false => exact (physAddr_keeps hwrite htlb va .READ).bind hrest

theorem store_keeps (htlb : ∀ c m, R m (dataTLB.set c m)) {n : ℕ} (va : U32) (data : BitVec (8 * n)) :
    Keeps R (store va data) := by
  refine (physAddr_keeps hwrite htlb va .WRITE).bind fun pa ↦
    Keeps.bind (fun m ↦ refl m) fun m ↦ (Keeps.lift _).bind fun ptr ↦ ?_
  exact Keeps.modify fun m ↦ hwrite m ptr n data

end

theorem load_sameMode (n : ℕ) (va : U32) (instRead : Bool) : Keeps SameMode (load n va instRead) :=
  load_keeps (fun _ _ _ _ ↦ ⟨rfl, rfl⟩) fun _ _ ↦ by cases instRead <;> exact ⟨rfl, rfl⟩

/-- Accesses to data leave the instruction TLB alone too. -/
structure DataSide (m m' : MMU) : Prop extends SameMode m m' where
  inst : m'.instTLB_ = m.instTLB_

instance : Std.Refl DataSide := ⟨fun m ↦ ⟨refl m, rfl⟩⟩

instance : IsTrans MMU DataSide :=
  ⟨fun _ _ _ h h' ↦ ⟨IsTrans.trans _ _ _ h.toSameMode h'.toSameMode, h'.inst.trans h.inst⟩⟩

theorem writeMem_dataSide (m : MMU) (p n : ℕ) (v : BitVec (8 * n)) : DataSide m (m.writeMem p v) :=
  ⟨⟨rfl, rfl⟩, rfl⟩

theorem load_dataSide (n : ℕ) (va : U32) : Keeps DataSide (load n va false) :=
  load_keeps writeMem_dataSide fun _ _ ↦ ⟨⟨rfl, rfl⟩, rfl⟩

theorem store_dataSide {n : ℕ} (va : U32) (data : BitVec (8 * n)) : Keeps DataSide (store va data) :=
  store_keeps writeMem_dataSide (fun _ _ ↦ ⟨⟨rfl, rfl⟩, rfl⟩) va data

end MMU

/-- A relation that assignments to registers, program counter and host keep, and accesses
to memory too. -/
structure Stable (R : State → State → Prop) : Prop where
  refl : Std.Refl R
  trans : IsTrans State R
  regs : ∀ s r, R s { s with regs := r }
  pc : ∀ s pc, R s { s with pc := pc }
  world : ∀ s w, R s { s with world := w }
  mmu : ∀ s m, MMU.SameMode s.mmu m → R s { s with mmu := m }

/-- A relation that these assignments keep, and accesses to data. -/
structure StableData (R : State → State → Prop) : Prop where
  refl : Std.Refl R
  trans : IsTrans State R
  regs : ∀ s r, R s { s with regs := r }
  pc : ∀ s pc, R s { s with pc := pc }
  world : ∀ s w, R s { s with world := w }
  mmu : ∀ s m, MMU.DataSide s.mmu m → R s { s with mmu := m }

namespace Stable

variable {R : State → State → Prop} (h : Stable R)

include h

theorem data : StableData R where
  refl := h.refl
  trans := h.trans
  regs := h.regs
  pc := h.pc
  world := h.world
  mmu s m hm := h.mmu s m hm.toSameMode

theorem getCmd (va : U32) : Keeps R (getCmd va) := Keeps.zoom (MMU.load_sameMode 4 va true) h.mmu

end Stable

namespace StableData

variable {R : State → State → Prop} (h : StableData R)

include h

theorem getReg (reg : Reg) : Keeps R (getReg reg) := h.refl.refl

theorem getPC : Keeps R getPC := h.refl.refl

theorem setReg (reg : Reg) (val : U32) : Keeps R (setReg reg val) := Keeps.modify fun s ↦ h.regs s _

theorem setPC (pc : U32) : Keeps R (setPC pc) := Keeps.modify fun s ↦ h.pc s pc

theorem onMmu {α : Type} {x : EStateM Stop MMU α} (hx : Keeps MMU.DataSide x) : Keeps R (onMmu x) :=
  Keeps.zoom hx h.mmu

theorem read (n : ℕ) (va : U32) : Keeps R (read n va) := h.onMmu (MMU.load_dataSide n va)

theorem write {n : ℕ} (va : U32) (data : BitVec (8 * n)) : Keeps R (write va data) :=
  h.onMmu (MMU.store_dataSide va data)

theorem fgetc : Keeps R Syscall.fgetc := by
  intro s
  rw [Syscall.fgetc, run_bind_of_ok (EStateM.run_get s)]
  cases s.world.stdin with
  | nil => exact h.refl.refl s
  | cons c rest => exact h.world s _

theorem compositional : Compositional (fun x ↦ Keeps R x) := by
  have := h.trans
  have := h.refl
  exact {
    pure := Keeps.pure
    bind := Keeps.bind
    throw := fun _ ↦ Keeps.throw _
    lift := fun x _ ↦ Keeps.lift x
    getReg := h.getReg
    setReg := h.setReg
    read := h.read
    write := h.write
    fgetc := h.fgetc
    fputc := fun c ↦ Keeps.modify fun s ↦ h.world s _
    gettimeofday := fun s ↦ h.world s _ }

end StableData

namespace Isa.ExecFunc

/-- Apart from FENCE and CSRRW, an instruction acts on registers, memory and host alone. -/
theorem exec_keeps {R : State → State → Prop} (h : StableData R) {func : ExecFunc}
    (hf : func ≠ .ExecFENCE) (hc : func ≠ .ExecCSRRW) (inst : Inst) (offset : U32) :
    Keeps R (func.exec inst offset) := by
  cases hp : func.usesPC with
  | false => exact exec_compositional h.compositional inst offset hp fun he ↦ absurd he hc
  | true => exact exec_compositional_pc h.compositional inst offset h.getPC h.setPC hp fun he ↦ absurd he hf

end Isa.ExecFunc

/-- The trace ends in a FENCE, which empties the cache. -/
def EndsInFence (insts : List Inst) : Prop := ∃ inst ∈ insts.getLast?, inst.func_ = .ExecFENCE

theorem stable_cache : Stable fun s s' ↦ s'.trace_cache = s.trace_cache where
  refl := ⟨fun _ ↦ rfl⟩
  trans := ⟨fun _ _ _ h h' ↦ Eq.trans h' h⟩
  regs _ _ := rfl
  pc _ _ := rfl
  world _ _ := rfl
  mmu _ _ _ := rfl

/-- Apart from FENCE, instructions leave the instruction TLB alone. -/
theorem stable_inst : StableData fun s s' ↦ s'.mmu.instTLB_ = s.mmu.instTLB_ where
  refl := ⟨fun _ ↦ rfl⟩
  trans := ⟨fun _ _ _ h h' ↦ Eq.trans h' h⟩
  regs _ _ := rfl
  pc _ _ := rfl
  world _ _ := rfl
  mmu _ _ h := h.inst

theorem stable_size : Stable fun s s' ↦ s'.mmu.pmem_size_ = s.mmu.pmem_size_ where
  refl := ⟨fun _ ↦ rfl⟩
  trans := ⟨fun _ _ _ h h' ↦ Eq.trans h' h⟩
  regs _ _ := rfl
  pc _ _ := rfl
  world _ _ := rfl
  mmu _ _ h := h.size

theorem stable_insts : Stable fun s s' ↦ s'.executed_insts = s.executed_insts where
  refl := ⟨fun _ ↦ rfl⟩
  trans := ⟨fun _ _ _ h h' ↦ Eq.trans h' h⟩
  regs _ _ := rfl
  pc _ _ := rfl
  world _ _ := rfl
  mmu _ _ _ := rfl

namespace Isa.ExecFunc

/-- Apart from FENCE, instructions keep what a write to `satp` keeps too. -/
theorem exec_keeps_unflushed {R : State → State → Prop} (h : StableData R)
    (hsatp : ∀ s (rs1 : U32),
      R s { s with mmu := { s.mmu with satp := s.mmu.satp ||| (rs1 &&& 0x80000000) } })
    {func : ExecFunc} (hf : func ≠ .ExecFENCE) (inst : Inst) (offset : U32) :
    Keeps R (func.exec inst offset) := by
  by_cases hc : func = .ExecCSRRW
  · subst hc
    exact h.compositional.execCSRRW inst fun rs1 s ↦ hsatp s rs1
  · exact exec_keeps h hf hc inst offset

theorem exec_keeps_cache {func : ExecFunc} (hf : func ≠ .ExecFENCE) (inst : Inst) (offset : U32) :
    Keeps (fun s s' ↦ s'.trace_cache = s.trace_cache) (func.exec inst offset) :=
  exec_keeps_unflushed stable_cache.data (fun _ _ ↦ rfl) hf inst offset

theorem exec_keeps_inst {func : ExecFunc} (hf : func ≠ .ExecFENCE) (inst : Inst) (offset : U32) :
    Keeps (fun s s' ↦ s'.mmu.instTLB_ = s.mmu.instTLB_) (func.exec inst offset) :=
  exec_keeps_unflushed stable_inst (fun _ _ ↦ rfl) hf inst offset

/-- A relation that a flush and a write to `satp` keep too, every instruction keeps. -/
theorem exec_keeps_all {R : State → State → Prop} (h : StableData R) (hflush : ∀ s : State,
      R s { s with mmu := s.mmu.flush, trace_cache := s.trace_cache.clear })
    (hsatp : ∀ s (rs1 : U32),
      R s { s with mmu := { s.mmu with satp := s.mmu.satp ||| (rs1 &&& 0x80000000) } })
    (func : ExecFunc) (inst : Inst) (offset : U32) : Keeps R (func.exec inst offset) := by
  have := h.trans
  have := h.refl
  by_cases hf : func = .ExecFENCE
  · subst hf
    exact (Keeps.modify hflush).bind fun _ ↦ h.getPC.bind fun _ ↦ (h.setPC _).bind fun _ ↦ Keeps.pure _
  · exact exec_keeps_unflushed h hsatp hf inst offset

theorem exec_keeps_size (func : ExecFunc) (inst : Inst) (offset : U32) :
    Keeps (fun s s' ↦ s'.mmu.pmem_size_ = s.mmu.pmem_size_) (func.exec inst offset) :=
  exec_keeps_all stable_size.data (fun _ ↦ rfl) (fun _ _ ↦ rfl) func inst offset

end Isa.ExecFunc

theorem Isa.ExecFunc.exec_keeps_insts (func : ExecFunc) (inst : Inst) (offset : U32) :
    Keeps (fun s s' ↦ s'.executed_insts = s.executed_insts) (func.exec inst offset) :=
  exec_keeps_all stable_insts.data (fun _ ↦ rfl) (fun _ _ ↦ rfl) func inst offset

/-- What the instructions of a trace keep, the chain keeps. -/
theorem execFrom_keeps_of {R : State → State → Prop} (h : StableData R) (k : ℕ) {insts : List Inst}
    (hx : ∀ inst ∈ insts, ∀ offset, Keeps R (inst.func_.exec inst offset)) : Keeps R (execFrom k insts) := by
  have := h.trans
  have := h.refl
  induction insts generalizing k with
  | nil => exact Keeps.throw _
  | cons inst rest ih =>
    refine (hx inst (List.mem_cons_self ..) _).bind fun flow ↦ ?_
    cases flow with
    | endTrace => exact Keeps.pure _
    | nextInst => exact (ih (k + 1) fun i hi ↦ hx i (List.mem_cons_of_mem _ hi)).bind fun _ ↦ Keeps.pure _

theorem execFrom_keeps {R : State → State → Prop} (h : StableData R)
    (hx : ∀ (func : ExecFunc) inst offset, Keeps R (func.exec inst offset)) (k : ℕ) (insts : List Inst) :
    Keeps R (execFrom k insts) :=
  execFrom_keeps_of h k fun inst _ ↦ hx _ inst

theorem execFrom_keeps_size (k : ℕ) (insts : List Inst) :
    Keeps (fun s s' ↦ s'.mmu.pmem_size_ = s.mmu.pmem_size_) (execFrom k insts) :=
  execFrom_keeps stable_size.data ExecFunc.exec_keeps_size k insts

theorem endsInFence_cons {inst : Inst} {rest : List Inst} (hr : rest ≠ []) :
    EndsInFence (inst :: rest) ↔ EndsInFence rest := by
  rw [EndsInFence, EndsInFence, List.getLast?_cons_of_ne_nil hr]

/-- What FENCE alone changes, a trace that runs to its end changes if it ends in a FENCE. -/
theorem execFrom_fence {α : Type} {f : State → α} {clear : α → α}
    (hkeep : ∀ {func : ExecFunc}, func ≠ .ExecFENCE → ∀ (inst : Inst) (offset : U32),
      Keeps (fun s s' ↦ f s' = f s) (func.exec inst offset))
    (hfence : ∀ s pc, f { s with mmu := s.mmu.flush, trace_cache := s.trace_cache.clear, pc := pc } =
      clear (f s))
    {k : ℕ} {insts : List Inst} (ht : IsTrace insts) {s s' : State} {visited : List ℕ}
    (h : (execFrom k insts).run s = .ok visited s') :
    (¬ EndsInFence insts ∧ f s' = f s) ∨ (EndsInFence insts ∧ f s' = clear (f s)) := by
  induction insts generalizing k s visited with
  | nil => exact absurd rfl ht.ne_nil
  | cons inst rest ih =>
    obtain ⟨flow, s₁, hx, hrest⟩ := run_bind_eq_ok.mp h
    have hflow := ExecFunc.exec_flow hx
    rw [← isTerminator_eq] at hflow
    by_cases hr : rest = []
    · subst hr
      rw [if_pos (show inst.isTerminator = true from ht)] at hflow
      subst hflow
      cases hrest
      by_cases hf : inst.func_ = .ExecFENCE
      · refine .inr ⟨⟨inst, rfl, hf⟩, ?_⟩
        rw [hf] at hx
        cases hx
        exact hfence s _
      · refine .inl ⟨?_, (hkeep hf inst _).of_ok hx⟩
        rintro ⟨i, hi, hfi⟩
        cases hi
        exact hf hfi
    · obtain ⟨hti, htr⟩ := (isTrace_cons hr).mp ht
      rw [if_neg (by rw [hti]; exact Bool.false_ne_true)] at hflow
      subst hflow
      obtain ⟨l, s₂, hl, h₂⟩ := run_bind_eq_ok.mp hrest
      cases h₂
      have hf : inst.func_ ≠ .ExecFENCE := by
        intro hf
        rw [isTerminator_eq, hf] at hti
        cases hti
      have hc : f s₁ = f s := (hkeep hf inst _).of_ok hx
      rw [endsInFence_cons hr, ← hc]
      exact ih htr hl

/-- A trace that runs to its end leaves the cache alone, or clears it. -/
theorem execFrom_cache {k : ℕ} {insts : List Inst} (ht : IsTrace insts) {s s' : State}
    {visited : List ℕ} (h : (execFrom k insts).run s = .ok visited s') :
    (¬ EndsInFence insts ∧ s'.trace_cache = s.trace_cache) ∨
      (EndsInFence insts ∧ s'.trace_cache = s.trace_cache.clear) :=
  execFrom_fence ExecFunc.exec_keeps_cache (fun _ _ ↦ rfl) ht h

/-- The same holds of the instruction TLB. -/
theorem execFrom_inst {k : ℕ} {insts : List Inst} (ht : IsTrace insts) {s s' : State}
    {visited : List ℕ} (h : (execFrom k insts).run s = .ok visited s') :
    (¬ EndsInFence insts ∧ s'.mmu.instTLB_ = s.mmu.instTLB_) ∨
      (EndsInFence insts ∧ s'.mmu.instTLB_ = s.mmu.instTLB_.clear) :=
  execFrom_fence ExecFunc.exec_keeps_inst (fun _ _ ↦ rfl) ht h

end RiscvSim
