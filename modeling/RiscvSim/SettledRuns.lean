import RiscvSim.JitRounds
import RiscvSim.EagerFetch

namespace RiscvSim

open Isa Ir State Results Simulation SingleStep Translator

/-- Wherever the machine that takes single steps begins a trace that has a translation, the templates of
the instructions that it reaches are safe. -/
def SafeSteps (host : Host) (s : State) : Prop :=
  ∀ k u insts, (iterate step k).run s = .ok () u → Heads s k → u.mmu.buildFrom host.fuel u.pc = .ok insts →
    (∀ inst ∈ insts, inst.isTranslationSupported = true) →
    ∀ i inst v, insts[i]? = some inst → Arrives insts u i v →
      (prepared Inst.translate insts false i inst).Safe inst v

/-- No trace that the machine begins ends in a FENCE. -/
def UnfencedSteps (host : Host) (s : State) : Prop :=
  ∀ k u insts, (iterate step k).run s = .ok () u → Heads s k → u.mmu.buildFrom host.fuel u.pc = .ok insts →
    ¬ EndsInFence insts

theorem Heads.alike {s t : State} {k : ℕ} (h : Heads s k) (hst : SameMachine s t) : Heads t k := by
  cases k with
  | zero => trivial
  | succ k =>
    obtain ⟨u, inst, hu, hi, hterm⟩ := h
    have halike := iterate_step_alike k hst
    rw [hu] at halike
    generalize hr : (iterate step k).run t = r at halike
    cases halike with
    | ok _ hst' =>
      refine ⟨_, inst, hr, ?_, hterm⟩
      rw [← hst'.mmu, ← hst'.pc]
      exact hi

theorem Heads.add {s t : State} {k j : ℕ} (hk : Heads s k) (hrun : (iterate step k).run s = .ok () t)
    (hj : Heads t j) : Heads s (k + j) := by
  cases j with
  | zero => exact hk
  | succ j => exact (heads_add hrun j).mpr hj

namespace Settled

variable {host : Host} {words : Set U32} {insts : List Inst} {n : ℕ} {s t u : State}

/-- Up to a stop is as good as for ever. -/
theorem extend_all {t' : State} {e : Stop} (h : Settled host n words s)
    (ht : (iterate step n).run s = .ok () t) (hstop : step.run t = .error e t') (k : ℕ) :
    Settled host k words s := by
  cases Nat.le_total n k with
  | inl hle =>
    obtain ⟨j, rfl⟩ := Nat.exists_eq_add_of_le hle
    exact h.extend ht hstop j
  | inr hle => exact h.le hle

/-- Neither the cache nor the instruction count matters. -/
theorem alike (h : Settled host n words s) (hst : SameMachine s t) : Settled host n words t := by
  induction n generalizing words s t with
  | zero =>
    rw [Settled, ← hst.mmu]
    exact h
  | succ n ih =>
    refine ⟨?_, fun inst t' hi hrun ↦ ?_⟩
    · rw [← hst.mmu]
      exact h.1
    · have halike := step_alike hst
      rw [hrun] at halike
      generalize hr : step.run s = r at halike
      cases halike with
      | ok _ hst' =>
        rw [← hst.mmu, ← hst.pc] at hi
        obtain ⟨hbytes, hn⟩ := h.2 inst _ hi hr
        have hwords : prefetched host words t = prefetched host words s := by
          rw [prefetched, prefetched, hst.mmu, hst.pc]
        rw [hwords, ← hst.mmu, ← hst'.mmu]
        exact ⟨hbytes, ih hn hst'⟩

/-- An iteration of the machine without a cache, in single steps. -/
theorem iteration (h : ∀ n, Settled host n words s) (hrun : (Uncached.iteration host).run s = .ok () t) :
    ∃ insts u, s.mmu.buildFrom host.fuel s.pc = .ok insts ∧ (iterate step insts.length).run s = .ok () u ∧
      SameMachine u t ∧ t.executed_insts = s.executed_insts + BitVec.ofNat 64 insts.length ∧
      Heads s insts.length ∧ 1 ≤ insts.length ∧
      MMU.SameBytes (fetchedAfter words s.pc insts) s.mmu t.mmu ∧
      ∀ n, Settled host n (fetchedAfter words s.pc insts) t := by
  have hv := (h 0).bare
  cases hb : s.mmu.buildFrom host.fuel s.pc with
  | error e =>
    rw [uncached_error hv hb] at hrun
    cases hrun
  | ok insts =>
    have hcount := Execution.count ((uncached_ok_iff hv hb).mp hrun)
    obtain ⟨visited, u, hx, rfl⟩ := (uncached_ok_iff hv hb).mp hrun
    obtain ⟨hsteps, hheads, hbytes, hset⟩ := Settled.runs h hb hx
    refine ⟨insts, u, rfl, hsteps, ⟨rfl, rfl, rfl, rfl⟩, hcount, hheads, ?_, hbytes, fun n ↦ ?_⟩
    · exact List.length_pos_of_ne_nil (MMU.buildFrom_ok hb).1.ne_nil
    · exact (hset n).alike ⟨rfl, rfl, rfl, rfl⟩

theorem quiet_all (h : ∀ n, Settled host n words s) (n : ℕ) : Quiet host n words s := by
  induction n generalizing words s with
  | zero => exact (h 0).bare
  | succ n ih =>
    refine ⟨(h 0).bare, fun trace s₀ s' hnew hrun ↦ ?_⟩
    obtain ⟨insts, u, hb, -, -, -, -, -, hbytes, hset⟩ := iteration h hrun
    rw [new_bare (h 0).bare, hb] at hnew
    cases hnew
    exact ⟨hbytes, ih hset⟩

theorem iterations (h : ∀ n, Settled host n words s) {k : ℕ}
    (hrun : (iterate (Uncached.iteration host) k).run s = .ok () t) :
    ∃ m u, k ≤ m ∧ (iterate step m).run s = .ok () u ∧ Heads s m ∧ SameMachine u t ∧
      t.executed_insts = s.executed_insts + BitVec.ofNat 64 m := by
  induction k generalizing words s with
  | zero =>
    cases hrun
    exact ⟨0, _, le_rfl, rfl, trivial, ⟨rfl, rfl, rfl, rfl⟩, (BitVec.add_zero _).symm⟩
  | succ k ih =>
    obtain ⟨v, s₁, hfirst, hrest⟩ := run_bind_eq_ok.mp hrun
    obtain ⟨insts, u, -, hsteps, hst, hcount, hheads, hpos, -, hset⟩ := iteration h hfirst
    obtain ⟨m, w, hle, hmore, hheads', hst', hcount'⟩ := ih hset hrest
    have halike := iterate_step_alike m hst
    rw [hmore] at halike
    generalize hr : (iterate step m).run u = r at halike
    cases halike with
    | ok _ hsame =>
      refine ⟨insts.length + m, _, by omega, iterate_add_eq_ok.mpr ⟨u, hsteps, hr⟩, ?_, hsame.trans hst', ?_⟩
      · exact hheads.add hsteps (hheads'.alike hst.symm)
      · rw [hcount', hcount, BitVec.add_assoc, BitVec.ofNat_add_ofNat]

theorem tame {jit : Bool} (h : ∀ n, Settled host n words s) (hsafe : jit = true → SafeSteps host s) :
    Tame host jit words s := by
  refine ⟨quiet_all h, fun hjit k u insts hu hb hsup i inst v hi hv ↦ ?_⟩
  obtain ⟨m, u', -, hsteps, hheads, hst, -⟩ := iterations h hu
  rw [← hst.mmu, ← hst.pc] at hb
  obtain ⟨v', hv', hst'⟩ := hv.alike hst.symm
  exact (hsafe hjit m u' insts hsteps hheads hb hsup i inst v' hi hv').alike hst'

theorem unfenced (h : ∀ n, Settled host n words s) (hfence : UnfencedSteps host s) : Unfenced host s := by
  intro k u insts hu hb
  obtain ⟨m, u', -, hsteps, hheads, hst, -⟩ := iterations h hu
  rw [← hst.mmu, ← hst.pc] at hb
  exact hfence m u' insts hsteps hheads hb

end Settled

/-- A machine that stays in a text which its steps leave alone is settled. -/
theorem settled_of_invariant {host : Host} {I : State → Prop} {text : Set U32}
    (hv : ∀ s, I s → s.mmu.isVirtualAddressing = false)
    (hline : ∀ s, I s → wordsOf s.pc (s.mmu.lineLength host.fuel s.pc) ⊆ text)
    (hI : ∀ s s', I s → step.run s = .ok () s' → I s' ∧ MMU.SameBytes text s.mmu s'.mmu) {words : Set U32}
    (hwords : words ⊆ text) {s : State} (h : I s) (n : ℕ) : Settled host n words s := by
  induction n generalizing s words with
  | zero => exact hv s h
  | succ n ih =>
    refine ⟨hv s h, fun inst s' _ hrun ↦ ?_⟩
    obtain ⟨h', hbytes⟩ := hI s s' h hrun
    have hread : prefetched host words s ⊆ text := Set.union_subset hwords (hline s h)
    exact ⟨hbytes.mono hread, ih (fun w hw ↦ hread hw.2) h'⟩

/-- `addi x1, x1, -1`, `sub x2, x2, x1` and `bne x1, x0, -8`, entered with 2 in `x1`, and the exit
syscall. -/
def countdown : State :=
  let mem := Bytes.write (n := 4) (fun _ ↦ 0) 0 0xfff08093#32
  let mem := Bytes.write (n := 4) mem 4 0x40110133#32
  let mem := Bytes.write (n := 4) mem 8 0xfe009ce3#32
  let mem := Bytes.write (n := 4) mem 12 0x05d00893#32
  let mem := Bytes.write (n := 4) mem 16 0x00000073#32
  let mem := Bytes.write (n := 4) mem 20 0x0000006f#32
  { onePage mem (.new 1) with regs := Regs.fill0.set 1 2 }

namespace countdown

def rest : List Inst := [genI .ADDI 17 0 93, genI .ECALL 0 0 0, genJ .JAL 0 0]

theorem fetches (va w : U32) (c : Command) (hsize : va.toNat + 4 < 4096)
    (hw : countdown.mmu.readMem 4 va.toNat = w) (h : Selects w c) :
    countdown.mmu.fetchInst va = .ok (readAs (formatOf c) c w) :=
  MMU.fetchInst_of_selects hsize hw h

theorem codeAt : countdown.mmu.CodeAt 0 (loop ++ rest) := by
  have haddi := fetches 0 0xfff08093#32 ⟨.ADDI, by decide⟩ (by decide) (by decide)
    ⟨rfl, rfl, fun _ _ ↦ rfl, nofun, trivial⟩
  have hsub := fetches 4 0x40110133#32 ⟨.SUB, by decide⟩ (by decide) (by decide)
    ⟨rfl, rfl, fun _ _ ↦ rfl, fun _ ↦ rfl, trivial⟩
  have hbne := fetches 8 0xfe009ce3#32 ⟨.BNE, by decide⟩ (by decide) (by decide)
    ⟨rfl, rfl, fun _ _ ↦ rfl, nofun, trivial⟩
  have haddi' := fetches 12 0x05d00893#32 ⟨.ADDI, by decide⟩ (by decide) (by decide)
    ⟨rfl, rfl, fun _ _ ↦ rfl, nofun, trivial⟩
  have hecall := fetches 16 0x00000073#32 .ECALL (by decide) (by decide)
    ⟨rfl, rfl, fun _ _ ↦ rfl, nofun, ⟨⟨rfl, rfl⟩, rfl⟩⟩
  have hjal := fetches 20 0x0000006f#32 ⟨.JAL, by decide⟩ (by decide) (by decide)
    ⟨rfl, rfl, nofun, nofun, trivial⟩
  rw [show readAs _ _ _ = genI ⟨.ADDI, by decide⟩ 1 1 (-1) by decide] at haddi
  rw [show readAs _ _ _ = genR ⟨.SUB, by decide⟩ 2 2 1 by decide] at hsub
  rw [show readAs _ _ _ = genB ⟨.BNE, by decide⟩ (-4) 1 0 by decide] at hbne
  rw [show readAs _ _ _ = genI ⟨.ADDI, by decide⟩ 17 0 93 by decide] at haddi'
  rw [show readAs _ _ _ = genI .ECALL 0 0 0 by decide] at hecall
  rw [show readAs _ _ _ = genJ ⟨.JAL, by decide⟩ 0 0 by decide] at hjal
  exact ⟨haddi, hsub, hbne, haddi', hecall, hjal, trivial⟩

def Counts (s : State) : Prop :=
  s.mmu = countdown.mmu ∧ (s.pc = 0 ∨ s.pc = 4 ∨ s.pc = 8 ∨ s.pc = 12 ∨ s.pc = 16 ∧ s.regs.get 17 = 93)

variable {s s' : State}

theorem step_of {va : U32} {inst : Inst} (hm : s.mmu = countdown.mmu) (hpc : s.pc = va)
    (hi : countdown.mmu.fetchInst va = .ok inst) : s.mmu.fetchInst s.pc = .ok inst ∧
      step.run s = finish ((inst.func_.exec inst 0).run s) := by
  rw [← hm, ← hpc] at hi
  refine ⟨hi, ?_⟩
  rw [step_bare (by rw [hm]; decide), hi]

theorem exit (hreg : s.regs.get 17 = 93) : ((genI .ECALL 0 0 0).func_.exec (genI .ECALL 0 0 0) 0).run s =
    .error (.simException "Successfully finished!\n") s := by
  have ha7 : (getReg Reg.a7).run s = .ok 93 s := by
    rw [← hreg]
    rfl
  change ExecInst.execECALL.run s = _
  rw [ExecInst.execECALL, run_bind_of_ok ha7]
  rfl

/-- What a step leaves: after a branch it is at the start of a trace. -/
structure Next (s s' : State) : Prop where
  counts : Counts s'
  mmu : s'.mmu = s.mmu
  head : ∀ inst, s.mmu.fetchInst s.pc = .ok inst → inst.isTerminator = true → s'.pc = 0 ∨ s'.pc = 12

theorem next {va : U32} {inst : Inst} {s₁ : State} (hm : s.mmu = countdown.mmu) (hpc : s.pc = va)
    (hi : countdown.mmu.fetchInst va = .ok inst) (hterm : inst.isTerminator = false)
    (hx : (inst.func_.exec inst 0).run s = .ok .nextInst s₁) (hmem : s₁.mmu = s.mmu)
    (hat : (s₁.advance 4).pc = 4 ∨ (s₁.advance 4).pc = 8 ∨ (s₁.advance 4).pc = 16 ∧ s₁.regs.get 17 = 93)
    (hrun : step.run s = .ok () s') : Next s s' := by
  obtain ⟨hfetch, hs⟩ := step_of hm hpc hi
  rw [hs, hx] at hrun
  cases hrun
  refine ⟨⟨hmem.trans hm, ?_⟩, hmem, fun inst' hi' hterm' ↦ ?_⟩
  · rcases hat with h | h | h
    · exact .inr (.inl h)
    · exact .inr (.inr (.inl h))
    · exact .inr (.inr (.inr (.inr h)))
  · rw [hfetch] at hi'
    cases hi'
    rw [hterm] at hterm'
    cases hterm'

theorem Counts.step (h : Counts s) (hrun : step.run s = .ok () s') : Next s s' := by
  obtain ⟨haddi, hsub, hbne, haddi', hecall, -⟩ := codeAt
  obtain ⟨hm, hpc | hpc | hpc | hpc | ⟨hpc, hreg⟩⟩ := h
  · refine next hm hpc haddi rfl rfl rfl (.inl ?_) hrun
    change s.pc + 4 = 4
    rw [hpc]
    rfl
  · refine next hm hpc hsub rfl rfl rfl (.inr (.inl ?_)) hrun
    change s.pc + 4 = 8
    rw [hpc]
    rfl
  · obtain ⟨-, hs⟩ := step_of hm hpc hbne
    rw [hs, exec_branch (by decide)] at hrun
    cases hrun
    have hends : (branched (genB ⟨.BNE, by decide⟩ (-4) 1 0) 0 s).pc = 0 ∨
        (branched (genB ⟨.BNE, by decide⟩ (-4) 1 0) 0 s).pc = 12 := by
      rw [branched]
      split
      · left
        change s.pc + 0 + _ = _
        rw [hpc]
        decide
      · right
        change s.pc + 0 + _ = _
        rw [hpc]
        decide
    refine ⟨⟨hm, ?_⟩, rfl, fun _ _ _ ↦ hends⟩
    rcases hends with h | h
    · exact .inl h
    · exact .inr (.inr (.inr (.inl h)))
  · refine next hm hpc haddi' rfl rfl rfl (.inr (.inr ⟨?_, ?_⟩)) hrun
    · change s.pc + 4 = 16
      rw [hpc]
      rfl
    · change (s.regs.set 17 (s.regs.get 0 + 93)).get 17 = 93
      rw [s.regs.get_set_self (by decide), s.regs.get_zero]
      rfl
  · obtain ⟨-, hs⟩ := step_of hm hpc hecall
    rw [hs, exit hreg] at hrun
    cases hrun

theorem counts : Counts countdown := ⟨rfl, .inl rfl⟩

theorem settled {host : Host} (words : Set U32) (n : ℕ) : Settled host n words countdown := by
  have hv : ∀ s, Counts s → s.mmu.isVirtualAddressing = false := fun s hs ↦ by
    rw [hs.1]
    decide
  refine settled_of_invariant hv (fun s _ ↦ Set.subset_univ _) (fun s s' hs hrun ↦ ?_) (Set.subset_univ _)
    counts n
  have hnext := hs.step hrun
  exact ⟨hnext.counts, fun w _ b _ _ ↦ by rw [hnext.mmu]⟩

theorem reached {k : ℕ} (hrun : (iterate step k).run countdown = .ok () s) :
    Counts s ∧ (Heads countdown k → s.pc = 0 ∨ s.pc = 12) := by
  induction k generalizing s with
  | zero =>
    cases hrun
    exact ⟨counts, fun _ ↦ .inl rfl⟩
  | succ k ih =>
    obtain ⟨u, hu, hlast⟩ := iterate_add_eq_ok.mp hrun
    have hnext := (ih hu).1.step (iterate_one.mp hlast)
    refine ⟨hnext.counts, fun hheads ↦ ?_⟩
    obtain ⟨u', inst, hu', hi, hterm⟩ := hheads
    rw [hu] at hu'
    cases hu'
    exact hnext.head inst hi hterm

theorem builds {host : Host} (hf : 3 ≤ host.fuel) : countdown.mmu.buildFrom host.fuel 0 = .ok loop ∧
    countdown.mmu.buildFrom host.fuel 12 = .ok rest := by
  obtain ⟨haddi, hsub, hbne, haddi', hecall, hjal, -⟩ := codeAt
  exact ⟨MMU.buildFrom_of_codeAt ⟨rfl, rfl, rfl⟩ ⟨haddi, hsub, hbne, trivial⟩ hf,
    MMU.buildFrom_of_codeAt ⟨rfl, rfl, rfl⟩ ⟨haddi', hecall, hjal, trivial⟩ hf⟩

theorem safeSteps {host : Host} (hf : 3 ≤ host.fuel) : SafeSteps host countdown := by
  intro k u insts hu hheads hb hsup i inst v hi _
  obtain ⟨hcounts, hat⟩ := reached hu
  obtain ⟨hloop, hrest⟩ := builds hf
  rw [hcounts.1] at hb
  rcases hat hheads with hpc | hpc
  · rw [hpc, hloop] at hb
    cases hb
    exact safe hi v
  · rw [hpc, hrest] at hb
    cases hb
    exact absurd (hsup (genI .ECALL 0 0 0) (by decide)) (by decide)

/-- The guest memory lies behind the state, and eight rounds are fuel enough for the traces. -/
def host : Host := { idleHost 8 with layout := ⟨0, 0x1000⟩ }

theorem fuel_host (k : ℕ) : 3 ≤ (host.more k).fuel := Nat.le_add_right_of_le (by decide)

theorem beside : host.layout.Beside countdown.mmu.pmem_size_ := by
  intro va hva
  replace hva : va.toNat < 4096 := hva
  change 152 ≤ (0x1000#64 + va.setWidth 64 - 0#64).toNat
  bv_omega

theorem tame {host : Host} {jit : Bool} (hf : 3 ≤ host.fuel) : Tame host jit ∅ countdown :=
  Settled.tame (settled ∅) fun _ ↦ safeSteps hf

theorem unfencedSteps {host : Host} (hf : 3 ≤ host.fuel) : UnfencedSteps host countdown := by
  intro k u insts hu hheads hb hfence
  obtain ⟨hcounts, hat⟩ := reached hu
  obtain ⟨hloop, hrest⟩ := builds hf
  obtain ⟨inst, hlast, hfunc⟩ := hfence
  rw [hcounts.1] at hb
  rcases hat hheads with hpc | hpc
  · rw [hpc, hloop] at hb
    cases hb
    cases hlast
    cases hfunc
  · rw [hpc, hrest] at hb
    cases hb
    cases hlast
    cases hfunc

/-- The program at `pc`, with 2 in `x1` or what is left of it. -/
def at_ (regs : Regs) (pc : U32) : State := { countdown with regs := regs, pc := pc }

def pass (regs : Regs) : Regs :=
  let regs := regs.set 1 (regs.get 1 + -1)
  regs.set 2 (regs.get 2 - regs.get 1)

def last : Regs := (pass (pass countdown.regs)).set 17 93

theorem step_at (regs : Regs) (pc : U32) {inst : Inst} (hi : countdown.mmu.fetchInst pc = .ok inst) :
    step.run (at_ regs pc) = finish ((inst.func_.exec inst 0).run (at_ regs pc)) := by
  have hm : (at_ regs pc).mmu = countdown.mmu := rfl
  have hpc : (at_ regs pc).pc = pc := rfl
  exact (step_of hm hpc hi).2

theorem branched_at (inst : Inst) (regs : Regs) (pc : U32) :
    branched inst 0 (at_ regs pc) = at_ regs (branched inst 0 (at_ regs pc)).pc := rfl

theorem steps (regs : Regs) (pc : U32)
    (hpc : (branched (genB ⟨.BNE, by decide⟩ (-4) 1 0) 0 (at_ (pass regs) 8)).pc = pc) :
    (iterate step 3).run (at_ regs 0) = .ok () (at_ (pass regs) pc) := by
  obtain ⟨haddi, hsub, hbne, -⟩ := codeAt
  subst hpc
  have h₁ : step.run (at_ regs 0) = .ok () (at_ (regs.set 1 (regs.get 1 + -1)) 4) := step_at regs 0 haddi
  have h₂ : step.run (at_ (regs.set 1 (regs.get 1 + -1)) 4) = .ok () (at_ (pass regs) 8) := step_at _ 4 hsub
  have h₃ : step.run (at_ (pass regs) 8) =
      .ok () (branched (genB ⟨.BNE, by decide⟩ (-4) 1 0) 0 (at_ (pass regs) 8)) := by
    rw [step_at _ 8 hbne, exec_branch (by decide)]
    rfl
  rw [branched_at] at h₃
  have h₄ := iterate_add_eq_ok.mpr ⟨_, iterate_one.mpr h₂, iterate_one.mpr h₃⟩
  exact iterate_add_eq_ok.mpr ⟨_, iterate_one.mpr h₁, h₄⟩

theorem at_start : at_ countdown.regs 0 = countdown := rfl

theorem runs : (iterate step 7).run countdown = .ok () (at_ last 16) := by
  rw [show (7 : ℕ) = 3 + (3 + 1) from rfl, ← at_start]
  obtain ⟨-, -, -, haddi, -⟩ := codeAt
  have h₁ := steps countdown.regs 0 (by decide)
  have h₂ := steps (pass countdown.regs) 12 (by decide)
  have h₃ : step.run (at_ (pass (pass countdown.regs)) 12) = .ok () (at_ last 16) := step_at _ 12 haddi
  have h₄ := iterate_add_eq_ok.mpr ⟨_, h₂, iterate_one.mpr h₃⟩
  have h₅ := iterate_add_eq_ok.mpr ⟨_, h₁, h₄⟩
  exact h₅

theorem builds_last {m : ℕ} {b : State} (h : LastHead countdown 7 m b) :
    ∃ insts, b.mmu.buildFrom host.fuel b.pc = .ok insts := by
  obtain ⟨hcounts, hat⟩ := reached h.reaches
  have hfuel : 3 ≤ host.fuel := by decide
  obtain ⟨hloop, hrest⟩ := builds hfuel
  rw [hcounts.1]
  rcases hat h.heads with hpc | hpc
  · rw [hpc]
    exact ⟨loop, hloop⟩
  · rw [hpc]
    exact ⟨rest, hrest⟩

theorem exits : step.run (at_ last 16) = .error (.simException "Successfully finished!\n") (at_ last 16) := by
  obtain ⟨-, -, -, -, hecall, -⟩ := codeAt
  rw [step_at last 16 hecall, exit rfl]
  rfl

end countdown

end RiscvSim
