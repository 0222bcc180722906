import RiscvSim.JitRuns
import RiscvSim.TraceRefinement

namespace RiscvSim

open Isa Ir State Results Simulation SingleStep Rv32i

/-- The words of `text` are instructions that follow the manual, and each line of them ends in a jump or
a branch. -/
def MMU.HoldsText (mmu : MMU) (text : Set U32) : Prop :=
  ∀ w ∈ text, ∃ inst, mmu.fetchInst w = .ok inst ∧ Covered inst ∧
    (inst.isTerminator = false → w + 4 ∈ text)

theorem MMU.fetchInst_lt {mmu : MMU} {va : U32} {inst : Inst} (h : mmu.fetchInst va = .ok inst) :
    va.toNat + 4 < mmu.pmem_size_ := by
  by_contra hout
  rw [MMU.fetchInst, MMU.getMemPtr_setWidth, if_pos (Nat.le_of_not_lt hout)] at h
  cases h

namespace MMU.HoldsText

variable {mmu mmu' : MMU} {text : Set U32} {va : U32}

theorem congr (h : mmu.HoldsText text) (hsize : mmu'.pmem_size_ = mmu.pmem_size_)
    (hbytes : MMU.SameBytes text mmu mmu') : mmu'.HoldsText text := by
  intro w hw
  rw [MMU.fetchInst_congr hsize (hbytes w hw)]
  exact h w hw

theorem line (h : mmu.HoldsText text) (fuel : ℕ) (hva : va ∈ text) :
    wordsOf va (mmu.lineLength fuel va) ⊆ text := by
  induction fuel generalizing va with
  | zero =>
    rintro w ⟨j, hj, rfl⟩
    exact absurd hj (Nat.not_lt_zero j)
  | succ fuel ih =>
    obtain ⟨inst, hi, -, hnext⟩ := h va hva
    rintro w ⟨j, hj, rfl⟩
    cases j with
    | zero => simpa using hva
    | succ j =>
      cases ht : inst.isTerminator with
      | true =>
        rw [(MMU.line_terminator fuel hi ht).1] at hj
        omega
      | false =>
        rw [(MMU.line_next fuel hi ht).1] at hj
        refine ih (hnext ht) ⟨j, Nat.lt_of_succ_lt_succ hj, ?_⟩
        rw [offset_succ, BitVec.add_assoc, BitVec.add_comm 4]

theorem builds (h : mmu.HoldsText text) {fuel : ℕ} {e : Stop} (hva : va ∈ text)
    (hb : mmu.buildFrom fuel va = .error e) :
    e = .outOfFuel ∧ (mmu.pmem_size_ ≤ 2 ^ 32 → va.toNat + fuel < mmu.pmem_size_) := by
  induction fuel generalizing va with
  | zero =>
    cases hb
    obtain ⟨inst, hi, -⟩ := h va hva
    have hin := MMU.fetchInst_lt hi
    exact ⟨rfl, fun _ ↦ by omega⟩
  | succ fuel ih =>
    obtain ⟨inst, hi, -, hnext⟩ := h va hva
    have hin := MMU.fetchInst_lt hi
    cases ht : inst.isTerminator with
    | true =>
      rw [(MMU.line_terminator fuel hi ht).2] at hb
      cases hb
    | false =>
      rw [(MMU.line_next fuel hi ht).2] at hb
      cases hr : mmu.buildFrom fuel (va + 4) with
      | error f =>
        rw [hr] at hb
        cases hb
        obtain ⟨rfl, hlt⟩ := ih (hnext ht) hr
        refine ⟨rfl, fun hsize ↦ ?_⟩
        have hplus := hlt hsize
        rw [BitVec.toNat_add, show (4 : U32).toNat = 4 from rfl] at hplus
        omega
      | ok rest =>
        rw [hr] at hb
        cases hb

theorem covered {insts : List Inst} (h : mmu.HoldsText text) (hva : va ∈ text) (ht : IsTrace insts)
    (hc : mmu.CodeAt va insts) : ∀ inst ∈ insts, Covered inst := by
  induction insts generalizing va with
  | nil => exact absurd rfl ht.ne_nil
  | cons inst rest ih =>
    obtain ⟨inst', hi, hcov, hnext⟩ := h va hva
    rw [hc.1] at hi
    cases hi
    intro i hmem
    rcases List.mem_cons.mp hmem with rfl | hmem
    · exact hcov
    · have hrest : rest ≠ [] := List.ne_nil_of_mem hmem
      obtain ⟨hterm, ht'⟩ := (isTrace_cons hrest).mp ht
      exact ih (hnext hterm) ht' hc.2 i hmem

end MMU.HoldsText

namespace Rv32i

/-- The manual's machine stays in `text`; what it accesses is in memory, what it stores to outside of
`text`. -/
def StaysIn (size : ℕ) (text : Set U32) (m : Machine) : Prop :=
  ∀ k m', steps k m = some m' → m'.pc ∈ text ∧ ∀ i, current m' = some i →
    ∀ a len wr, access m' i = some (a, len, wr) → a.toNat + len < size ∧
      (wr = true → ∀ w ∈ text, a.toNat + len ≤ w.toNat ∨ w.toNat + 4 ≤ a.toNat)

variable {size : ℕ} {text : Set U32} {m m' : Machine}

theorem StaysIn.next (h : StaysIn size text m) (hs : step m = some m') : StaysIn size text m' := by
  intro k m'' hk
  refine h (k + 1) m'' ?_
  rw [steps, hs]
  exact hk

theorem not_fence {inst : Inst} (h : Covered inst) : inst.func_ ≠ .ExecFENCE := by
  obtain ⟨imm, rs1, rs2, rd, c, hc⟩ := inst
  intro hf
  cases c <;> first | exact h | cases hf

end Rv32i

/-- The simulator is about to run a program of the manual. -/
structure OnText (text : Set U32) (s : State) : Prop where
  bare : s.mmu.isVirtualAddressing = false
  holds : s.mmu.HoldsText text
  stays : StaysIn s.mmu.pmem_size_ text s.machine

namespace OnText

variable {host : Host} {text words : Set U32} {s t : State}

theorem pc (h : OnText text s) : s.pc ∈ text := (h.stays 0 s.machine rfl).1

/-- A step is the manual's, and leaves the text as it was. -/
theorem step (h : OnText text s) : ∃ i, current s.machine = some i ∧
    SingleStep.step.run s = .ok () (s.withMachine (exec s.machine i)) ∧
    MMU.SameBytes text s.mmu (s.withMachine (exec s.machine i)).mmu ∧
    OnText text (s.withMachine (exec s.machine i)) := by
  obtain ⟨inst, hi, hcov, -⟩ := h.holds s.pc h.pc
  obtain ⟨-, haccess⟩ := h.stays 0 s.machine rfl
  obtain ⟨i, hcur, hrun⟩ := step_covered h.bare hi hcov fun i hi a n wr ha ↦ (haccess i hi a n wr ha).1
  have hbytes : MMU.SameBytes text s.mmu (s.withMachine (exec s.machine i)).mmu := by
    intro w hw b hl hu
    refine exec_mem s.machine i fun a len ha ↦ ?_
    have happart := (haccess i hcur a len true ha).2 rfl w hw
    omega
  have hstep : Rv32i.step s.machine = some (exec s.machine i) := by rw [Rv32i.step, hcur]; rfl
  refine ⟨i, hcur, hrun, hbytes, h.bare, h.holds.congr rfl hbytes, ?_⟩
  exact h.stays.next hstep

theorem settled (h : OnText text s) (hw : words ⊆ text) (n : ℕ) : Settled host n words s := by
  induction n generalizing s words with
  | zero => exact h.bare
  | succ n ih =>
    refine ⟨h.bare, fun inst s' _ hrun ↦ ?_⟩
    obtain ⟨i, -, hstep, hbytes, hnext⟩ := h.step
    rw [hstep] at hrun
    cases hrun
    have hsub : prefetched host words s ⊆ text := Set.union_subset hw (h.holds.line host.fuel h.pc)
    exact ⟨hbytes.mono hsub, ih hnext fun w hw' ↦ hsub hw'.2⟩

theorem steps (h : OnText text s) {k : ℕ} (hrun : (iterate SingleStep.step k).run s = .ok () t) :
    Rv32i.steps k s.machine = some t.machine ∧ t = s.withMachine t.machine ∧ OnText text t := by
  induction k generalizing s with
  | zero =>
    cases hrun
    exact ⟨rfl, rfl, h⟩
  | succ k ih =>
    obtain ⟨i, hcur, hstep, -, hnext⟩ := h.step
    rw [iterate, run_bind_of_ok hstep] at hrun
    obtain ⟨hsteps, hsame, ht⟩ := ih hnext hrun
    refine ⟨?_, hsame, ht⟩
    rw [Rv32i.steps, Rv32i.step, hcur]
    exact hsteps

theorem alike (h : OnText text s) (hst : SameMachine s t) : OnText text t := by
  obtain ⟨hbare, hholds, hstays⟩ := h
  have hmachine : t.machine = s.machine := by rw [machine, machine, hst.regs, hst.pc, hst.mmu]
  rw [hst.mmu] at hbare hholds hstays
  exact ⟨hbare, hholds, by rwa [hmachine]⟩

theorem uncached (h : OnText text s) {e : Stop} (hrun : (Uncached.iteration host).run s = .error e t) :
    e = .outOfFuel ∧ (s.mmu.pmem_size_ ≤ 2 ^ 32 → host.fuel < s.mmu.pmem_size_) := by
  cases hb : s.mmu.buildFrom host.fuel s.pc with
  | error f =>
    rw [uncached_error h.bare hb] at hrun
    cases hrun
    obtain ⟨hf, hlt⟩ := h.holds.builds h.pc hb
    exact ⟨hf, fun hsize ↦ Nat.lt_of_le_of_lt (Nat.le_add_left _ _) (hlt hsize)⟩
  | ok insts =>
    obtain ⟨ht, hc⟩ := MMU.buildFrom_ok hb
    rw [uncached_run h.bare hb] at hrun
    cases hx : (execFrom 0 insts).run s with
    | ok visited u =>
      rw [run_bind_of_ok hx] at hrun
      cases hrun
    | error f u =>
      -- the machine that takes single steps would stop in the middle of the trace
      obtain ⟨k, v, v', hstop, -⟩ := (execFrom_error_iff ht 0).mp hx
      rw [show s.advance (BitVec.ofNat 32 (4 * 0)) = s from advance_zero s] at hstop
      have hline := h.holds.line host.fuel h.pc
      rw [MMU.lineLength_of_ok hb] at hline
      have hset : Settled host insts.length _ s := h.settled hline insts.length
      obtain ⟨hreach, hthrow⟩ := hstop.steps ht (hset.finds le_rfl hc le_rfl)
      obtain ⟨-, -, hv⟩ := h.steps hreach
      obtain ⟨i, -, hok, -⟩ := hv.step
      rw [hthrow] at hok
      cases hok

theorem stops (h : OnText text s) {e : Stop} (hstop : Stops (Uncached.iteration host) s e t) :
    e = .outOfFuel ∧ (s.mmu.pmem_size_ ≤ 2 ^ 32 → host.fuel < s.mmu.pmem_size_) := by
  obtain ⟨n, u, hu, hstop⟩ := hstop
  obtain ⟨k, v, -, hsteps, -, hst, -⟩ := Settled.iterations (h.settled (Set.empty_subset text)) hu
  obtain ⟨-, hsame, hv⟩ := h.steps hsteps
  have hsize : u.mmu.pmem_size_ = s.mmu.pmem_size_ := by
    rw [← hst.mmu, hsame]
    rfl
  rw [← hsize]
  exact (hv.alike hst).uncached hstop

theorem unfenced (h : OnText text s) : UnfencedSteps host s := by
  intro k u insts hu _ hb hfence
  obtain ⟨-, -, hu'⟩ := h.steps hu
  obtain ⟨ht, hc⟩ := MMU.buildFrom_ok hb
  obtain ⟨inst, hlast, hfunc⟩ := hfence
  exact not_fence (hu'.holds.covered hu'.pc ht hc inst (List.mem_of_getLast? hlast)) hfunc

theorem iterated (h : OnText text s) {n : ℕ} (hrun : (iterate (Uncached.iteration host) n).run s = .ok () t) :
    ∃ m, n ≤ m ∧ Rv32i.steps m s.machine = some t.machine ∧ SameMachine (s.withMachine t.machine) t ∧
      t.executed_insts = s.executed_insts + BitVec.ofNat 64 m ∧ OnText text t := by
  have hset : ∀ n, Settled host n ∅ s := h.settled (Set.empty_subset text)
  obtain ⟨m, u, hle, hsteps, -, hst, hcount⟩ := Settled.iterations hset hrun
  obtain ⟨hmanual, hsame, hu⟩ := h.steps hsteps
  have hmachine : u.machine = t.machine := by rw [machine, machine, hst.regs, hst.pc, hst.mmu]
  rw [hmachine] at hmanual hsame
  refine ⟨m, hle, hmanual, ?_, hcount, hu.alike hst⟩
  rw [← hsame]
  exact hst

theorem meets (h : OnText text s) {opts : Options} (hsafe : opts.jit = true → SafeSteps host s)
    (hside : host.layout.Beside s.mmu.pmem_size_) {cap : ℕ} (hcap : 1 ≤ cap) :
    Meets host opts.jit True { s with trace_cache := .new cap } s := by
  have hset : ∀ n, Settled host n ∅ s := h.settled (Set.empty_subset text)
  exact .new_counted hcap rfl (Settled.tame hset hsafe) ⟨rfl, rfl, rfl, rfl⟩ hside rfl
    (Settled.unfenced hset h.unfenced)

/-- Without the translator no round fails that has fuel enough to construct its trace. -/
theorem advances (h : OnText text s) {opts : Options} (hjit : opts.jit = false) {u : State}
    (hmeets : Meets host opts.jit True u s) (hsize : s.mmu.pmem_size_ ≤ 2 ^ 32)
    (hfuel : s.mmu.pmem_size_ ≤ host.fuel) : ∃ u', (Sim.iteration opts host).run u = .ok () u' := by
  rcases hmeets.round with hcovers | ⟨-, -, -, -, -, -, -, -, hjit', -⟩
  · generalize hi : (Sim.iteration opts host).run u = r at hcovers
    cases hcovers with
    | steps => exact ⟨_, rfl⟩
    | stops hstop =>
      have hlt := (h.stops hstop).2 hsize
      omega
    | given hg => exact hg.elim
  · rw [hjit] at hjit'
    cases hjit'

end OnText

namespace Sim

variable {host : Host} {opts : Options} {text : Set U32} {s : State}

/-- Under all options and with a cache of any size but 0 the simulator runs a program of the manual as the
manual's machine does, counts its instructions, and never stops by an exception. -/
theorem runs_manual (h : OnText text s) (hsafe : opts.jit = true → SafeSteps host s)
    (hside : host.layout.Beside s.mmu.pmem_size_) {cap : ℕ} (hcap : 1 ≤ cap) :
    (∀ n s', Rounds opts host { s with trace_cache := .new cap } n s' → ∃ m, n ≤ m ∧
      Rv32i.steps m s.machine = some s'.machine ∧ SameMachine (s.withMachine s'.machine) s' ∧
      s'.executed_insts = s.executed_insts + BitVec.ofNat 64 m) ∧
    (∀ fuel e s', (execute opts host fuel).run { s with trace_cache := .new cap } = .error e s' →
      e = .outOfFuel) ∧
    (opts.jit = false → opts.max_insts = 0 → s.mmu.pmem_size_ ≤ 2 ^ 32 → s.mmu.pmem_size_ ≤ host.fuel →
      ∀ n, ∃ s', Rounds opts host { s with trace_cache := .new cap } n s') := by
  have hmeets := h.meets hsafe hside hcap
  refine ⟨fun n s' hr ↦ ?_, fun fuel e s' hrun ↦ ?_, fun hjit hmax hsize hfuel n ↦ ?_⟩
  · obtain ⟨k, t, hle, hrun, ht⟩ := hr.meets hmeets
    obtain ⟨m, hle', hmanual, hsame, hcount, -⟩ := h.iterated hrun
    have hmachine : t.machine = s'.machine := by
      rw [machine, machine, ht.sameMachine.regs, ht.sameMachine.pc, ht.sameMachine.mmu]
    rw [hmachine] at hmanual hsame
    exact ⟨m, hle.trans hle', hmanual, hsame.trans ht.sameMachine.symm, ht.count.trans hcount⟩
  · by_contra hne
    obtain ⟨t', hstop, -⟩ := stops_of_execute hmeets hrun hne
    exact hne (h.stops hstop).1
  · induction n with
    | zero => exact ⟨_, .zero⟩
    | succ n ih =>
      obtain ⟨u, hr⟩ := ih
      obtain ⟨m, t, -, hrun, hu⟩ := hr.meets hmeets
      obtain ⟨-, -, -, hsame, -, ht⟩ := h.iterated hrun
      have hsize' : t.mmu.pmem_size_ = s.mmu.pmem_size_ := by
        rw [← hsame.mmu]
        rfl
      rw [← hsize'] at hsize hfuel
      obtain ⟨u', hi⟩ := ht.advances hjit hu hsize hfuel
      exact ⟨u', hr.next hi fun hlim ↦ hlim.1 hmax⟩

end Sim

namespace Rv32i

theorem staysIn_of_invariant {size : ℕ} {text : Set U32} {I : Machine → Prop} (hpc : ∀ m, I m → m.pc ∈ text)
    (haccess : ∀ m i, I m → current m = some i → ∀ a len wr, access m i = some (a, len, wr) →
      a.toNat + len < size ∧ (wr = true → ∀ w ∈ text, a.toNat + len ≤ w.toNat ∨ w.toNat + 4 ≤ a.toNat))
    (hstep : ∀ m i, I m → current m = some i → I (exec m i)) {m : Machine} (h : I m) :
    StaysIn size text m := by
  intro k
  induction k generalizing m with
  | zero =>
    intro m' hk
    cases hk
    exact ⟨hpc m h, fun i ↦ haccess m i h⟩
  | succ k ih =>
    intro m' hk
    obtain ⟨m₁, hm₁, hk⟩ := Option.bind_eq_some_iff.mp hk
    obtain ⟨i, hi, rfl⟩ := Option.map_eq_some_iff.mp hm₁
    exact ih (hstep m i h hi) m' hk

end Rv32i

namespace storeLoop

open Trace

def text : Set U32 := {0, 4, 8}

/-- What the loop keeps: it stores beside its words. -/
def Kept (m : Machine) : Prop :=
  m.pc ∈ text ∧ ∀ b < 12, m.mem b = (storeLoop (.new 1)).mmu.pmem_ b

theorem current_of {m : Machine} (h : Kept m) {va : U32} {i : Instr} (hpc : m.pc = va) (hva : va.toNat ≤ 8)
    (hi : current ⟨.fill0, va, (storeLoop (.new 1)).mmu.pmem_⟩ = some i) : current m = some i := by
  have hread : Bytes.read m.mem va.toNat 4 = Bytes.read (storeLoop (.new 1)).mmu.pmem_ va.toNat 4 :=
    Bytes.read_congr fun b _ hu ↦ h.2 b (by omega)
  rw [current, hpc, hread]
  exact hi

theorem Kept.step {m : Machine} (h : Kept m) : ∃ i, current m = some i ∧ Kept (exec m i) ∧
    ∀ a len wr, access m i = some (a, len, wr) → a.toNat + len < 4096 ∧
      (wr = true → ∀ w ∈ text, a.toNat + len ≤ w.toNat ∨ w.toNat + 4 ≤ a.toNat) := by
  obtain hpc | hpc | hpc := h.1
  · refine ⟨.opImm .add 1 0 5, current_of h hpc (by decide) (by decide), ⟨?_, h.2⟩, fun a len wr ha ↦ ?_⟩
    · exact .inr (.inl (congrArg (· + 4) hpc))
    · cases ha
  · have hmem : ∀ b < 12, (exec m (.store .word 0 1 64)).mem b = m.mem b := by
      intro b hb
      refine exec_mem m _ fun a len ha ↦ .inl ?_
      cases ha
      rw [m.regs.get_zero]
      exact Nat.lt_of_lt_of_le hb (by decide)
    refine ⟨.store .word 0 1 64, current_of h hpc (by decide) (by decide), ⟨?_, fun b hb ↦ ?_⟩,
      fun a len wr ha ↦ ?_⟩
    · exact .inr (.inr (congrArg (· + 4) hpc))
    · exact (hmem b hb).trans (h.2 b hb)
    · cases ha
      rw [m.regs.get_zero]
      refine ⟨by decide, fun _ w hw ↦ .inr ?_⟩
      obtain rfl | rfl | rfl := hw <;> decide
  · refine ⟨.jal 0 (-4), current_of h hpc (by decide) (by decide), ⟨?_, h.2⟩, fun a len wr ha ↦ ?_⟩
    · refine .inl ?_
      change m.pc + bytes (-4 : BitVec 20) = 0
      rw [hpc]
      decide
    · cases ha

theorem holdsText {mmu : MMU} (hsize : 4096 ≤ mmu.pmem_size_)
    (hmem : ∀ b < 12, mmu.pmem_ b = (storeLoop (.new 1)).mmu.pmem_ b) : mmu.HoldsText text := by
  have hfetch (va w : U32) (c : Command) (hva : va.toNat ≤ 8)
      (hw : (storeLoop (.new 1)).mmu.readMem 4 va.toNat = w) (h : Selects w c) :
      ∃ inst, mmu.fetchInst va = .ok inst ∧ inst.cmd_ = c := by
    have hread : mmu.readMem 4 va.toNat = w := by
      rw [← hw]
      exact Bytes.read_congr fun b _ hu ↦ hmem b (by omega)
    exact ⟨_, MMU.fetchInst_of_selects (by omega) hread h, readAs_cmd _ _ _⟩
  rintro w (rfl | rfl | rfl)
  · obtain ⟨inst, hi, hc⟩ := hfetch 0 0x00500093#32 .ADDI
      (by decide) (by decide) ⟨rfl, rfl, fun _ _ ↦ rfl, fun h ↦ absurd h (by decide), trivial⟩
    refine ⟨inst, hi, ?_, fun _ ↦ .inr (.inl rfl)⟩
    rw [Covered, Inst.getCmd, hc]
    trivial
  · obtain ⟨inst, hi, hc⟩ := hfetch 4 0x04102023#32 ⟨.SW, by decide⟩
      (by decide) (by decide) ⟨rfl, rfl, fun _ _ ↦ rfl, fun h ↦ absurd h (by decide), trivial⟩
    refine ⟨inst, hi, ?_, fun _ ↦ .inr (.inr rfl)⟩
    rw [Covered, Inst.getCmd, hc]
    trivial
  · obtain ⟨inst, hi, hc⟩ := hfetch 8 0xff9ff06f#32 .JAL
      (by decide) (by decide) ⟨rfl, rfl, fun _ h ↦ absurd rfl h, fun h ↦ absurd h (by decide), trivial⟩
    refine ⟨inst, hi, ?_, fun hterm ↦ ?_⟩
    · rw [Covered, Inst.getCmd, hc]
      trivial
    · rw [isTerminator_eq, Inst.func_, hc] at hterm
      cases hterm

theorem onText {s : State} (hv : s.mmu.isVirtualAddressing = false) (hsize : 4096 ≤ s.mmu.pmem_size_)
    (hpc : s.pc = 0) (hmem : ∀ b < 12, s.mmu.pmem_ b = (storeLoop (.new 1)).mmu.pmem_ b) : OnText text s := by
  refine ⟨hv, holdsText hsize hmem, ?_⟩
  refine staysIn_of_invariant (I := Kept) (fun m h ↦ h.1) (fun m i h hi a len wr ha ↦ ?_)
    (fun m i h hi ↦ ?_) ?_
  · obtain ⟨i', hi', -, haccess⟩ := h.step
    rw [hi] at hi'
    cases hi'
    obtain ⟨hin, hout⟩ := haccess a len wr ha
    exact ⟨hin.trans_le hsize, hout⟩
  · obtain ⟨i', hi', hnext, -⟩ := h.step
    rw [hi] at hi'
    cases hi'
    exact hnext
  · exact ⟨.inl hpc, hmem⟩

end storeLoop

namespace Sim

/-- A hundred rounds of the endless loop. -/
theorem runs_manual_storeLoop : ∃ (s' : State) (m : ℕ),
    Rounds ⟨false, 0, 0⟩ (countdown.host.more 4096) (Trace.storeLoop (.new 1)) 100 s' ∧ 100 ≤ m ∧
    Rv32i.steps m (Trace.storeLoop (.new 1)).machine = some s'.machine ∧
    s'.executed_insts = BitVec.ofNat 64 m := by
  let opts : Options := ⟨false, 0, 0⟩
  let host : Host := countdown.host.more 4096
  have hside : host.layout.Beside 4096 := countdown.beside
  have hsafe : opts.jit = true → SafeSteps host (Trace.storeLoop (.new 1)) := nofun
  obtain ⟨hrounds, -, hruns⟩ := runs_manual (storeLoop.onText rfl le_rfl rfl fun _ _ ↦ rfl) hsafe hside le_rfl
  obtain ⟨s', hr⟩ := hruns rfl rfl (by decide) (Nat.le_add_left _ _) 100
  obtain ⟨m, hle, hsteps, -, hcount⟩ := hrounds 100 s' hr
  exact ⟨s', m, hr, hle, hsteps, hcount.trans (BitVec.zero_add _)⟩

end Sim

end RiscvSim
