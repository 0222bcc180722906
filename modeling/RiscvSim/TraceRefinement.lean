import RiscvSim.Rv32iStep

namespace RiscvSim

open Isa Ir State Results Rv32i

namespace Rv32i

/-- The access of the current instruction, if it makes one, stays in memory; a store leaves
alone the `n` words from `va` on. -/
def Fits (size : ℕ) (va : U32) (n : ℕ) (m : Machine) : Prop :=
  ∀ i, current m = some i → ∀ a len wr, access m i = some (a, len, wr) →
    a.toNat + len < size ∧ (wr = true → ∀ j < n,
      a.toNat + len ≤ (va + BitVec.ofNat 32 (4 * j)).toNat ∨
        (va + BitVec.ofNat 32 (4 * j)).toNat + 4 ≤ a.toNat)

theorem exec_mem (m : Machine) (i : Instr) {b : ℕ}
    (h : ∀ a len, access m i = some (a, len, true) → b < a.toNat ∨ a.toNat + len ≤ b) :
    (exec m i).mem b = m.mem b := by
  cases i with
  | store w rs1 rs2 imm =>
    rcases h _ _ rfl with hlt | hge
    · exact Bytes.write_of_lt _ _ hlt
    · exact Bytes.write_of_ge _ _ hge
  | branch c rs1 rs2 offset =>
    simp only [exec]
    split <;> rfl
  | _ => rfl

theorem Fits.sameWords {s : State} {va : U32} {n : ℕ} {i : Instr}
    (h : Fits s.mmu.pmem_size_ va n s.machine) (hi : current s.machine = some i) {pc : U32} :
    MMU.SameWords s.mmu ((s.withMachine (exec s.machine i)).withPC pc).mmu va n := by
  intro j hj b hl hu
  refine exec_mem s.machine i fun a len ha ↦ ?_
  have hd := (h i hi a len true ha).2 rfl j hj
  omega

end Rv32i

theorem offset_succ (k : ℕ) : BitVec.ofNat 32 (4 * (k + 1)) = BitVec.ofNat 32 (4 * k) + 4 := by
  rw [Nat.mul_succ, ← BitVec.ofNat_add_ofNat]
  rfl

theorem sameWords_of_suffix {mmu mmu' : MMU} {va : U32} {k l : ℕ}
    (h : MMU.SameWords mmu mmu' va (k + l)) :
    MMU.SameWords mmu mmu' (va + BitVec.ofNat 32 (4 * k)) l := by
  intro j hj b
  have hw : va + BitVec.ofNat 32 (4 * k) + BitVec.ofNat 32 (4 * j) =
      va + BitVec.ofNat 32 (4 * (k + j)) := by
    rw [BitVec.add_assoc, BitVec.ofNat_add_ofNat, ← Nat.mul_add]
  rw [hw]
  exact h (k + j) (Nat.add_lt_add_left hj k) b

/-- The chain from index `k` on against the manual's machine, whose program counter is at
that index while the interpreter's stays at the start of the trace. -/
theorem execFrom_refines {rest : List Inst} {k n : ℕ} {s : State}
    (hv : s.mmu.isVirtualAddressing = false) (ht : IsTrace rest)
    (hcode : s.mmu.CodeAt (s.pc + BitVec.ofNat 32 (4 * k)) rest)
    (hcov : ∀ inst ∈ rest, Covered inst) (hn : k + rest.length = n)
    (hfit : ∀ j < rest.length, ∀ m, steps j (s.advance (BitVec.ofNat 32 (4 * k))).machine = some m →
      Fits s.mmu.pmem_size_ s.pc n m) :
    ∃ m, steps rest.length (s.advance (BitVec.ofNat 32 (4 * k))).machine = some m ∧
      (execFrom k rest).run s = .ok (List.range' k rest.length) (s.withMachine m) := by
  induction rest generalizing k s with
  | nil => exact absurd rfl ht.ne_nil
  | cons inst rest ih =>
    have hfit0 := hfit 0 (Nat.succ_pos _) _ rfl
    obtain ⟨i, hi, hstep⟩ := step_covered (s := s.advance (BitVec.ofNat 32 (4 * k))) hv hcode.1
      (hcov inst (List.mem_cons_self ..)) fun i hi a len wr ha ↦ (hfit0 i hi a len wr ha).1
    have hadv := step_advance hv hcode.1
    rw [hstep] at hadv
    have hm1 : step (s.advance (BitVec.ofNat 32 (4 * k))).machine =
        some (exec (s.advance (BitVec.ofNat 32 (4 * k))).machine i) := by
      rw [step, hi]
      rfl
    have hsteps : ∀ j, steps (j + 1) (s.advance (BitVec.ofNat 32 (4 * k))).machine =
        steps j (exec (s.advance (BitVec.ofNat 32 (4 * k))).machine i) := fun j ↦ by
      rw [steps, hm1]
      rfl
    generalize hme : exec (s.advance (BitVec.ofNat 32 (4 * k))).machine i = m1 at *
    cases hx : (inst.func_.exec inst (BitVec.ofNat 32 (4 * k))).run s with
    | error e s1 =>
      rw [hx] at hadv
      cases hadv
    | ok flow s1 =>
      rw [hx] at hadv
      have hflow := ExecFunc.exec_flow hx
      rw [← isTerminator_eq] at hflow
      cases flow with
      | endTrace =>
        have hterm : inst.isTerminator = true := by
          by_contra hne
          rw [Bool.not_eq_true] at hne
          rw [hne] at hflow
          cases hflow
        have hnil : rest = [] := by
          by_contra hr
          rw [((isTrace_cons hr).mp ht).1] at hterm
          cases hterm
        subst hnil
        refine ⟨m1, hsteps 0, ?_⟩
        rw [execFrom, run_bind_of_ok hx]
        injection hadv with _ hs1
        rw [← hs1]
        rfl
      | nextInst =>
        have hterm : inst.isTerminator = false := by
          by_contra hne
          rw [Bool.not_eq_false] at hne
          rw [hne] at hflow
          cases hflow
        have hr : rest ≠ [] := by
          rintro rfl
          rw [show inst.isTerminator = true from ht] at hterm
          cases hterm
        injection hadv with _ hs1
        have hpc := ExecFunc.exec_next_pc hx
        have hs1' : s1 = (s.withMachine m1).withPC s.pc := by
          have hw := congrArg (withPC s.pc) hs1
          rw [show (s1.advance _).withPC s.pc = s1.withPC s.pc from rfl,
            show s1.withPC s.pc = s1 by rw [← hpc]; rfl] at hw
          exact hw.symm
        have hnext : s1.advance (BitVec.ofNat 32 (4 * (k + 1))) = s.withMachine m1 := by
          rw [offset_succ]
          exact hs1.symm
        have hsame : MMU.SameWords s.mmu s1.mmu s.pc n := by
          rw [hs1', ← hme]
          exact Fits.sameWords (s := s.advance (BitVec.ofNat 32 (4 * k))) hfit0 hi
        have hlen : k + 1 + rest.length = n := by
          rw [List.length_cons] at hn
          omega
        have hcode1 : s1.mmu.CodeAt (s1.pc + BitVec.ofNat 32 (4 * (k + 1))) rest := by
          have hc2 := hcode.2
          rw [BitVec.add_assoc, ← offset_succ, ← hpc] at hc2
          refine hc2.congr (by rw [hs1']; rfl) (sameWords_of_suffix ?_)
          rwa [hlen, hpc]
        obtain ⟨m, hm, hrun⟩ := ih (k := k + 1) (s := s1) (by rw [hs1']; exact hv)
          ((isTrace_cons hr).mp ht).2 hcode1 (fun inst hmem ↦ hcov inst (List.mem_cons_of_mem _ hmem))
          hlen (by
            intro j hj m hjm
            rw [hnext] at hjm
            have hf := hfit (j + 1) (Nat.succ_lt_succ hj) m (by rw [hsteps]; exact hjm)
            rw [hpc, hs1']
            exact hf)
        refine ⟨m, ?_, ?_⟩
        · rw [List.length_cons, hsteps]
          rw [hnext] at hm
          exact hm
        · rw [execFrom, run_bind_of_ok hx]
          dsimp only
          rw [run_bind_of_ok hrun, hs1']
          rfl

namespace Trace

variable {opts : Options} {host : Host}

theorem execute_ok (hjit : opts.jit = false) {s s' : State} {addr : ℕ} {trace : Trace}
    {visited : List ℕ} (haddr : s.trace_cache.deref addr = some trace)
    (hnative : trace.exec_trace_ = none)
    (hrun : (execFrom 0 trace.trace_).run s = .ok visited s')
    (haddr' : s'.trace_cache.deref addr = some trace) :
    (execute opts host addr).run s = .ok () { s' with
      executed_insts := s'.executed_insts + BitVec.ofNat 64 trace.trace_.length } := by
  have hsize : (size host addr).run s' = .ok (BitVec.ofNat 64 trace.trace_.length) s' := by
    rw [size, run_bind_of_ok (EStateM.run_get s'), haddr']
    rfl
  rw [execute_interpreted hjit haddr hnative, run_bind_of_ok hrun, run_bind_of_ok hsize]
  rfl

/-- Interpreting a trace is running the manual's machine for as many steps as the trace has
instructions; the chain visits each index once, in order, and stops at the last. -/
theorem execute_refines (hjit : opts.jit = false) {s s₀ : State} {addr : ℕ} {trace : Trace}
    (hvirt : s.mmu.isVirtualAddressing = false) (hbuild : (new host).run s = .ok trace s₀)
    (haddr : s.trace_cache.deref addr = some trace) (hcov : ∀ inst ∈ trace.trace_, Covered inst)
    (hfit : ∀ k < trace.trace_.length, ∀ m, steps k s.machine = some m →
      Fits s.mmu.pmem_size_ s.pc trace.trace_.length m) :
    ∃ m s', steps trace.trace_.length s.machine = some m ∧
      (execFrom 0 trace.trace_).run s = .ok (List.range trace.trace_.length) (s.withMachine m) ∧
      (execute opts host addr).run s = .ok () s' ∧ s'.machine = m ∧
      s'.executed_insts = s.executed_insts + BitVec.ofNat 64 trace.trace_.length := by
  rw [new_bare hvirt] at hbuild
  cases hb : s.mmu.buildFrom host.fuel s.pc with
  | error e =>
    rw [hb] at hbuild
    cases hbuild
  | ok insts =>
    rw [hb] at hbuild
    cases hbuild
    obtain ⟨ht, hcode⟩ := MMU.buildFrom_ok hb
    have hpc : s.pc + BitVec.ofNat 32 (4 * 0) = s.pc := BitVec.add_zero _
    have h0 : s.advance (BitVec.ofNat 32 (4 * 0)) = s := by rw [advance, hpc]; rfl
    obtain ⟨m, hm, hrun⟩ := execFrom_refines (k := 0) (n := insts.length) hvirt ht
      (by rw [hpc]; exact hcode) hcov (Nat.zero_add _)
      (fun j hj m hjm ↦ hfit j hj m (by rwa [h0] at hjm))
    rw [h0] at hm
    refine ⟨m, _, hm, ?_, execute_ok hjit haddr rfl hrun haddr, rfl, rfl⟩
    rw [hrun, List.range_eq_range']

/-- `addi x1, x0, 5`, `sw x1, 64(x0)` and a jump back to the first of them. -/
def storeLoop : LRUCache U32 Trace → State :=
  let mem := Bytes.write (n := 4) (fun _ ↦ 0) 0 0x00500093#32
  let mem := Bytes.write (n := 4) mem 4 0x04102023#32
  onePage (Bytes.write (n := 4) mem 8 0xff9ff06f#32)

theorem execute_refines_storeLoop : ∃ (trace : Trace) (m : Machine) (s' : State),
    trace.trace_.length = 3 ∧ steps 3 (storeLoop (.new 1)).machine = some m ∧
    (execute ⟨false, 100, 0⟩ (idleHost 3) 0).run
      (storeLoop ((LRUCache.new 1).emplaceFront 0#32 trace)) = .ok () s' ∧
    s'.machine = m ∧ s'.executed_insts = 3 := by
  let mmu := (storeLoop (.new 1)).mmu
  have hfetch (va w : U32) (c : Command) (hsize : va.toNat + 4 < 4096)
      (hw : mmu.readMem 4 va.toNat = w) (h : Selects w c) :
      ∃ inst, mmu.fetchInst va = .ok inst ∧ inst.cmd_ = c :=
    ⟨_, MMU.fetchInst_of_selects hsize hw h, readAs_cmd _ _ _⟩
  obtain ⟨addi, hf0, hc0⟩ := hfetch 0 0x00500093#32 ⟨.ADDI, by decide⟩
    (by decide) (by decide) ⟨rfl, rfl, fun _ _ ↦ rfl, nofun, trivial⟩
  obtain ⟨sw, hf1, hc1⟩ := hfetch 4 0x04102023#32 ⟨.SW, by decide⟩
    (by decide) (by decide) ⟨rfl, rfl, fun _ _ ↦ rfl, nofun, trivial⟩
  obtain ⟨jal, hf2, hc2⟩ := hfetch 8 0xff9ff06f#32 ⟨.JAL, by decide⟩
    (by decide) (by decide) ⟨rfl, rfl, nofun, nofun, trivial⟩
  have ht : IsTrace [addi, sw, jal] := by
    simp only [IsTrace, isTerminator_eq, Inst.func_, hc0, hc1, hc2]
    decide
  have hb : mmu.buildFrom 3 0 = .ok [addi, sw, jal] :=
    MMU.buildFrom_of_codeAt ht ⟨hf0, hf1, hf2, trivial⟩ le_rfl
  let s := storeLoop ((LRUCache.new 1).emplaceFront 0#32 { trace_ := [addi, sw, jal] })
  have hvirt : s.mmu.isVirtualAddressing = false := (by decide : mmu.isVirtualAddressing = false)
  have hnew : (new (idleHost 3)).run s = .ok { trace_ := [addi, sw, jal] } s := by
    rw [new_bare hvirt, show s.mmu.buildFrom (idleHost 3).fuel s.pc = _ from hb]
  have hcov : ∀ inst ∈ [addi, sw, jal], Covered inst := by
    simp only [List.forall_mem_cons, Covered, Inst.getCmd, hc0, hc1, hc2, List.not_mem_nil,
      false_implies, implies_true, and_self]
  have hcur0 : current (storeLoop (.new 1)).machine = some (.opImm .add 1 0 5) := by decide
  have hcur1 : (steps 1 (storeLoop (.new 1)).machine).bind current =
    some (.store .word 0 1 64) := by decide
  have hcur2 : (steps 2 (storeLoop (.new 1)).machine).bind current = some (.jal 0 (-4)) := by decide
  have hfit : ∀ k < 3, ∀ m, steps k (storeLoop (.new 1)).machine = some m → Fits 4096 0 3 m := by
    intro k hk m hm i hi a len wr ha
    rcases k with _ | _ | _ | k
    · cases hm
      cases hcur0.symm.trans hi
      cases ha
    · rw [hm, Option.bind_some, hi] at hcur1
      cases hcur1
      cases ha
      rw [m.regs.get_zero]
      refine ⟨by decide, fun _ j hj ↦ .inr ?_⟩
      rcases j with _ | _ | _ | j
      · decide
      · decide
      · decide
      · omega
    · rw [hm, Option.bind_some, hi] at hcur2
      cases hcur2
      cases ha
    · omega
  obtain ⟨m, s', hm, -, hrun, hs', hinsts⟩ :=
    execute_refines (show (⟨false, 100, 0⟩ : Options).jit = false from rfl) hvirt hnew
      (show s.trace_cache.deref 0 = some _ from rfl) hcov hfit
  exact ⟨_, m, s', rfl, hm, hrun, hs', hinsts⟩

end Trace

end RiscvSim
