import RiscvSim.SingleStep

namespace RiscvSim

open Isa Ir State Results

namespace MMU

variable {mmu : MMU}

theorem physAddr_bare (hv : mmu.isVirtualAddressing = false) (tlb : LRUCache.Member MMU U32 PhysAddr)
    (va : U32) (acc : AccessType) : (physAddr tlb va acc).run mmu = .ok (va.setWidth 64) mmu := by
  rw [physAddr, run_bind_of_ok (EStateM.run_get mmu), if_neg (by rw [hv]; exact Bool.false_ne_true)]
  rfl

theorem load_bare (hv : mmu.isVirtualAddressing = false) (n : ℕ) (va : U32) (instRead : Bool) :
    (load n va instRead).run mmu = match mmu.getMemPtr n (va.setWidth 64) with
      | .ok ptr => .ok (mmu.readMem n ptr) mmu
      | .error e => .error e mmu := by
  have hrest : ∀ x : EStateM Stop MMU U64, x.run mmu = .ok (va.setWidth 64) mmu →
      (x >>= fun pa ↦ (do
        let ptr ← lift ((← get).getMemPtr n pa)
        return (← get).readMem n ptr : EStateM Stop MMU (BitVec (8 * n)))).run mmu =
      match mmu.getMemPtr n (va.setWidth 64) with
        | .ok ptr => .ok (mmu.readMem n ptr) mmu
        | .error e => .error e mmu := by
    intro x hx
    rw [run_bind_of_ok hx, run_bind_of_ok (EStateM.run_get mmu)]
    cases mmu.getMemPtr n (va.setWidth 64) <;> rfl
  cases instRead with
  | true => exact hrest _ (physAddr_bare hv instTLB va .EXEC)
  | false => exact hrest _ (physAddr_bare hv dataTLB va .READ)

theorem store_bare (hv : mmu.isVirtualAddressing = false) {n : ℕ} (va : U32)
    (data : BitVec (8 * n)) :
    (store va data).run mmu = match mmu.getMemPtr n (va.setWidth 64) with
      | .ok ptr => .ok () (mmu.writeMem ptr data)
      | .error e => .error e mmu := by
  rw [store, run_bind_of_ok (physAddr_bare hv _ _ _), run_bind_of_ok (EStateM.run_get mmu)]
  cases mmu.getMemPtr n (va.setWidth 64) <;> rfl

/-- The instruction at an address, as a fetch without translation finds it. -/
def fetchInst (mmu : MMU) (va : U32) : Except Stop Inst := do
  let ptr ← mmu.getMemPtr 4 (va.setWidth 64)
  Decoder.decoder_.decode (mmu.readMem 4 ptr)

theorem fetchInst_of_selects {va w : U32} {c : Command} (hsize : va.toNat + 4 < mmu.pmem_size_)
    (hw : mmu.readMem 4 va.toNat = w) (h : Selects w c) :
    mmu.fetchInst va = .ok (readAs (formatOf c) c w) := by
  rw [fetchInst, getMemPtr_setWidth, if_neg (Nat.not_le_of_lt hsize)]
  change Decoder.decoder_.decode (mmu.readMem 4 va.toNat) = _
  rw [hw, Decoder.decode_ok_iff, readAs_cmd]
  exact ⟨h, rfl⟩

/-- The loop of `Trace::Trace` as a function of the memory. -/
def buildFrom (mmu : MMU) : ℕ → U32 → Except Stop (List Inst)
  | 0, _ => throw .outOfFuel
  | fuel + 1, address => do
    let inst ← mmu.fetchInst address
    if inst.isTerminator then return [inst]
    else return inst :: (← buildFrom mmu fuel (address + 4))

/-- The memory holds these instructions from `va` on. -/
def CodeAt (mmu : MMU) : U32 → List Inst → Prop
  | _, [] => True
  | va, inst :: rest => mmu.fetchInst va = .ok inst ∧ CodeAt mmu (va + 4) rest

end MMU

/-- A terminator ends the list and stands nowhere else in it. -/
def IsTrace : List Inst → Prop
  | [] => False
  | [inst] => inst.isTerminator = true
  | inst :: rest => inst.isTerminator = false ∧ IsTrace rest

theorem isTrace_cons {inst : Inst} {rest : List Inst} (hr : rest ≠ []) :
    IsTrace (inst :: rest) ↔ inst.isTerminator = false ∧ IsTrace rest := by
  cases rest with
  | nil => exact absurd rfl hr
  | cons i is => rfl

theorem IsTrace.ne_nil {insts : List Inst} (h : IsTrace insts) : insts ≠ [] := by
  rintro rfl
  exact h

namespace MMU

variable {mmu : MMU}

theorem buildFrom_ok {fuel : ℕ} {va : U32} {insts : List Inst}
    (h : mmu.buildFrom fuel va = .ok insts) : IsTrace insts ∧ mmu.CodeAt va insts := by
  induction fuel generalizing va insts with
  | zero => cases h
  | succ fuel ih =>
    obtain ⟨inst, hinst, hrest⟩ := bind_eq_ok.mp h
    cases ht : inst.isTerminator with
    | true =>
      rw [if_pos ht] at hrest
      cases hrest
      exact ⟨ht, hinst, trivial⟩
    | false =>
      rw [if_neg (by rw [ht]; exact Bool.false_ne_true)] at hrest
      obtain ⟨rest, hr, hi⟩ := bind_eq_ok.mp hrest
      cases hi
      obtain ⟨htr, hcode⟩ := ih hr
      exact ⟨(isTrace_cons htr.ne_nil).mpr ⟨ht, htr⟩, hinst, hcode⟩

theorem fetchInst_congr {mmu mmu' : MMU} (hs : mmu'.pmem_size_ = mmu.pmem_size_) {va : U32}
    (hb : ∀ b, va.toNat ≤ b → b < va.toNat + 4 → mmu'.pmem_ b = mmu.pmem_ b) :
    mmu'.fetchInst va = mmu.fetchInst va := by
  rw [fetchInst, fetchInst, getMemPtr_setWidth, getMemPtr_setWidth, hs]
  split
  · rfl
  · change Decoder.decoder_.decode (mmu'.readMem 4 va.toNat) =
      Decoder.decoder_.decode (mmu.readMem 4 va.toNat)
    rw [readMem, readMem, Bytes.read_congr hb]

/-- The `n` words from `va` on hold the same bytes. -/
def SameWords (mmu mmu' : MMU) (va : U32) (n : ℕ) : Prop :=
  ∀ j < n, ∀ b, (va + BitVec.ofNat 32 (4 * j)).toNat ≤ b →
    b < (va + BitVec.ofNat 32 (4 * j)).toNat + 4 → mmu'.pmem_ b = mmu.pmem_ b

theorem word_succ (va : U32) (j : ℕ) :
    va + BitVec.ofNat 32 (4 * (j + 1)) = va + 4 + BitVec.ofNat 32 (4 * j) := by
  rw [BitVec.add_assoc, Nat.mul_succ, Nat.add_comm, ← BitVec.ofNat_add_ofNat]
  rfl

theorem SameWords.head {mmu mmu' : MMU} {va : U32} {n : ℕ} (h : SameWords mmu mmu' va (n + 1))
    {b : ℕ} (hl : va.toNat ≤ b) (hu : b < va.toNat + 4) : mmu'.pmem_ b = mmu.pmem_ b := by
  have h0 := h 0 (Nat.succ_pos n) b
  rw [Nat.mul_zero, BitVec.add_zero] at h0
  exact h0 hl hu

theorem SameWords.tail {mmu mmu' : MMU} {va : U32} {n : ℕ} (h : SameWords mmu mmu' va (n + 1)) :
    SameWords mmu mmu' (va + 4) n := by
  intro j hj b
  rw [← word_succ]
  exact h (j + 1) (Nat.succ_lt_succ hj) b

theorem CodeAt.congr {mmu mmu' : MMU} {va : U32} {insts : List Inst} (h : mmu.CodeAt va insts)
    (hs : mmu'.pmem_size_ = mmu.pmem_size_) (hb : SameWords mmu mmu' va insts.length) :
    mmu'.CodeAt va insts := by
  induction insts generalizing va with
  | nil => exact trivial
  | cons inst rest ih =>
    refine ⟨?_, ih h.2 hb.tail⟩
    rw [fetchInst_congr hs fun b hl hu ↦ hb.head hl hu]
    exact h.1

/-- A trace in memory is what the constructor builds, given fuel for its length. -/
theorem buildFrom_of_codeAt {fuel : ℕ} {va : U32} {insts : List Inst} (ht : IsTrace insts)
    (hc : mmu.CodeAt va insts) (hf : insts.length ≤ fuel) : mmu.buildFrom fuel va = .ok insts := by
  induction insts generalizing fuel va with
  | nil => exact absurd rfl ht.ne_nil
  | cons inst rest ih =>
    obtain ⟨fuel, rfl⟩ : ∃ n, fuel = n + 1 := ⟨fuel - 1, by simp only [List.length_cons] at hf; omega⟩
    refine bind_eq_ok.mpr ⟨inst, hc.1, ?_⟩
    by_cases hr : rest = []
    · subst hr
      rw [if_pos (show inst.isTerminator = true from ht)]
      rfl
    · obtain ⟨hti, htr⟩ := (isTrace_cons hr).mp ht
      rw [if_neg (by rw [hti]; exact Bool.false_ne_true),
        ih htr hc.2 (by simp only [List.length_cons] at hf; omega)]
      rfl

theorem buildFrom_length {fuel : ℕ} {va : U32} {insts : List Inst}
    (h : mmu.buildFrom fuel va = .ok insts) : insts.length ≤ fuel := by
  induction fuel generalizing va insts with
  | zero => cases h
  | succ fuel ih =>
    obtain ⟨inst, -, hrest⟩ := bind_eq_ok.mp h
    cases ht : inst.isTerminator with
    | true =>
      rw [if_pos ht] at hrest
      cases hrest
      exact Nat.le_add_left 1 fuel
    | false =>
      rw [if_neg (by rw [ht]; exact Bool.false_ne_true)] at hrest
      obtain ⟨rest, hr, hi⟩ := bind_eq_ok.mp hrest
      cases hi
      exact Nat.succ_le_succ (ih hr)

end MMU

section

variable {s : State} (hv : s.mmu.isVirtualAddressing = false)

include hv

theorem read_bare (n : ℕ) (va : U32) :
    (State.read n va).run s = match s.mmu.getMemPtr n (va.setWidth 64) with
      | .ok ptr => .ok (s.mmu.readMem n ptr) s
      | .error e => .error e s := by
  rw [State.read, onMmu, run_zoom, MMU.load_bare hv]
  cases s.mmu.getMemPtr n (va.setWidth 64) <;> rfl

theorem write_bare {n : ℕ} (va : U32) (data : BitVec (8 * n)) :
    (State.write va data).run s = match s.mmu.getMemPtr n (va.setWidth 64) with
      | .ok ptr => .ok () { s with mmu := s.mmu.writeMem ptr data }
      | .error e => .error e s := by
  rw [State.write, onMmu, run_zoom, MMU.store_bare hv]
  cases s.mmu.getMemPtr n (va.setWidth 64) <;> rfl

theorem getCmd_bare (va : U32) :
    (getCmd va).run s = match s.mmu.getMemPtr 4 (va.setWidth 64) with
      | .ok ptr => .ok (s.mmu.readMem 4 ptr) s
      | .error e => .error e s := by
  rw [getCmd, onMmu, run_zoom, MMU.load_bare hv]
  cases s.mmu.getMemPtr 4 (va.setWidth 64) <;> rfl

theorem fetch_bare (va : U32) :
    (do lift (Decoder.decoder_.decode (← getCmd va)) : Run Inst).run s =
      (lift (s.mmu.fetchInst va)).run s := by
  have hcmd := getCmd_bare hv va
  rw [MMU.fetchInst]
  cases hp : s.mmu.getMemPtr 4 (va.setWidth 64) with
  | error e =>
    rw [hp] at hcmd
    rw [run_bind_of_error hcmd]
    rfl
  | ok ptr =>
    rw [hp] at hcmd
    rw [run_bind_of_ok hcmd]
    rfl

theorem fetchFrom_bare (fuel : ℕ) (va : U32) :
    (Trace.fetchFrom fuel va).run s = (lift (s.mmu.buildFrom fuel va)).run s := by
  induction fuel generalizing va with
  | zero => rfl
  | succ fuel ih =>
    have hassoc : Trace.fetchFrom (fuel + 1) va =
        ((do lift (Decoder.decoder_.decode (← getCmd va)) : Run Inst) >>= fun inst ↦
          if inst.isTerminator then pure [inst]
          else do return inst :: (← Trace.fetchFrom fuel (va + 4))) := by
      rw [Trace.fetchFrom, bind_assoc]
    rw [hassoc, MMU.buildFrom]
    cases hi : s.mmu.fetchInst va with
    | error e =>
      rw [run_bind_of_error (by rw [fetch_bare hv, hi]; rfl)]
      rfl
    | ok inst =>
      rw [run_bind_of_ok (by rw [fetch_bare hv, hi]; rfl)]
      change _ = (lift (if inst.isTerminator then _ else _)).run s
      cases inst.isTerminator with
      | true => rfl
      | false =>
        cases hr : s.mmu.buildFrom fuel (va + 4) with
        | error e =>
          change (Trace.fetchFrom fuel (va + 4) >>= _).run s = _
          rw [run_bind_of_error (by rw [ih, hr]; rfl)]
          rfl
        | ok rest =>
          change (Trace.fetchFrom fuel (va + 4) >>= _).run s = _
          rw [run_bind_of_ok (by rw [ih, hr]; rfl)]
          rfl

theorem new_bare (host : Host) : (Trace.new host).run s =
    match s.mmu.buildFrom host.fuel s.pc with
      | .ok insts => .ok { trace_ := insts } s
      | .error e => .error e s := by
  have h := fetchFrom_bare hv host.fuel s.pc
  change (Trace.fetchFrom host.fuel s.pc >>= _).run s = _
  cases hb : s.mmu.buildFrom host.fuel s.pc with
  | error e =>
    rw [hb] at h
    rw [run_bind_of_error h]
  | ok insts =>
    rw [hb] at h
    rw [run_bind_of_ok h]
    rfl

theorem step_bare : SingleStep.step.run s = match s.mmu.fetchInst s.pc with
    | .error e => .error e s
    | .ok inst => SingleStep.finish ((inst.func_.exec inst 0).run s) := by
  have hpc : getPC.run s = .ok s.pc s := rfl
  rw [SingleStep.step, run_bind_of_ok hpc]
  cases hi : s.mmu.fetchInst s.pc with
  | error e => rw [run_bind_assoc_of_error (by rw [fetch_bare hv, hi]; rfl)]
  | ok inst =>
    rw [run_bind_assoc_of_ok (by rw [fetch_bare hv, hi]; rfl)]
    dsimp only
    cases hx : (inst.func_.exec inst 0).run s with
    | error e s' =>
      rw [run_bind_of_error hx]
      rfl
    | ok flow s' =>
      rw [run_bind_of_ok hx]
      cases flow <;> rfl

/-- A single step at an offset into a trace does what the interpreter does there. -/
theorem step_advance {offset : U32} {inst : Inst}
    (hf : s.mmu.fetchInst (s.pc + offset) = .ok inst) :
    SingleStep.step.run (s.advance offset) = match (inst.func_.exec inst offset).run s with
      | .ok .endTrace s' => .ok () s'
      | .ok .nextInst s' => .ok () (s'.advance (offset + 4))
      | .error e s' => .error e (s'.advance offset) := by
  have hf' : (s.advance offset).mmu.fetchInst (s.advance offset).pc = .ok inst := hf
  rw [step_bare (s := s.advance offset) hv, hf']
  dsimp only
  rw [ExecFunc.exec_advance]
  cases (inst.func_.exec inst offset).run s with
  | error e s' => rfl
  | ok flow s' =>
    cases flow with
    | endTrace => rfl
    | nextInst => simp only [SingleStep.finish, advance, withPC, BitVec.add_assoc]

end

namespace Isa.ExecFunc

/-- The functions that close with `END_TRACE`. -/
def endsTrace : ExecFunc → Bool
  | .ExecAUIPC => false
  | func => func.usesPC

theorem exec_flow {func : ExecFunc} {inst : Inst} {offset : U32} {s s' : State} {flow : Flow}
    (h : (func.exec inst offset).run s = .ok flow s') :
    flow = if func.endsTrace then .endTrace else .nextInst := by
  cases hp : func.usesPC with
  | false =>
    have he : func.endsTrace = false := by cases func <;> first | rfl | exact hp
    rw [he]
    exact exec_yields hp inst offset s flow s' h
  | true => cases func <;> first | (cases h; rfl) | cases hp

theorem exec_next_pc {func : ExecFunc} {inst : Inst} {offset : U32} {s s' : State}
    (h : (func.exec inst offset).run s = .ok .nextInst s') : s'.pc = s.pc := by
  cases hp : func.usesPC with
  | false =>
    have hk := exec_keepsPC hp inst offset s
    rw [h] at hk
    exact hk
  | true => cases func <;> first | (cases h; rfl) | cases h | cases hp

end Isa.ExecFunc

/-- The instructions that end the fetch loop are those whose function ends the chain. -/
theorem isTerminator_eq (inst : Inst) : inst.isTerminator = inst.func_.endsTrace := by
  obtain ⟨imm, rs1, rs2, rd, c, hc⟩ := inst
  cases c <;> first | rfl | exact absurd rfl hc

section

variable {s : State} (inst : Inst)

theorem getMemPtr_ok {n : ℕ} {va : U32} (h : va.toNat + n < s.mmu.pmem_size_) :
    s.mmu.getMemPtr n (va.setWidth 64) = .ok va.toNat := by
  rw [MMU.getMemPtr_setWidth, if_neg (by omega)]

theorem load_run (hv : s.mmu.isVirtualAddressing = false) {n : ℕ} (extend : BitVec (8 * n) → U32)
    (h : (s.regs.get inst.getRs1 + inst.getImm).toNat + n < s.mmu.pmem_size_) :
    let v := extend (Bytes.read s.mmu.pmem_ (s.regs.get inst.getRs1 + inst.getImm).toNat n)
    (ExecInst.load inst n extend).run s =
      .ok .nextInst { s with regs := s.regs.set inst.getRd v } := by
  intro v
  have hr : (State.read n (s.regs.get inst.getRs1 + inst.getImm)).run s =
      .ok (s.mmu.readMem n (s.regs.get inst.getRs1 + inst.getImm).toNat) s := by
    rw [read_bare hv, getMemPtr_ok h]
  change (State.read n (s.regs.get inst.getRs1 + inst.getImm) >>= _).run s = _
  rw [run_bind_of_ok hr]
  rfl

/-- A store reads its two registers first. -/
theorem store_eq (n : ℕ) : (ExecInst.store inst n).run s = (do
    State.write (s.regs.get inst.getRs1 + inst.getImm) ((s.regs.get inst.getRs2).setWidth (8 * n))
    return .nextInst : Run Flow).run s := by
  have h₁ : (ExecInst.URS1 inst).run s = .ok (s.regs.get inst.getRs1) s := rfl
  have h₂ : (ExecInst.URS2 inst).run s = .ok (s.regs.get inst.getRs2) s := rfl
  rw [ExecInst.store, run_bind_of_ok h₁, run_bind_of_ok h₂]

theorem store_run (hv : s.mmu.isVirtualAddressing = false) {n : ℕ}
    (h : (s.regs.get inst.getRs1 + inst.getImm).toNat + n < s.mmu.pmem_size_) :
    let a := (s.regs.get inst.getRs1 + inst.getImm).toNat
    let v := (s.regs.get inst.getRs2).setWidth (8 * n)
    (ExecInst.store inst n).run s = .ok .nextInst { s with mmu := s.mmu.writeMem a v } := by
  intro a v
  have hw := write_bare hv (s.regs.get inst.getRs1 + inst.getImm)
    ((s.regs.get inst.getRs2).setWidth (8 * n))
  rw [getMemPtr_ok h] at hw
  rw [store_eq, run_bind_of_ok hw]
  rfl

end

end RiscvSim
