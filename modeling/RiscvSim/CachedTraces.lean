import RiscvSim.PagedFetch
import RiscvSim.Lifetime

namespace RiscvSim

open Isa Ir State Results

theorem satp_or_of_virt {satp rs1 : U32} (h : satp >>> 31 ≠ 0#32) :
    satp ||| (rs1 &&& 0x80000000) = satp := by
  have hbit : satp.getLsbD 31 = true := by
    by_contra hb
    refine h (BitVec.eq_of_getLsbD_eq fun i hi ↦ ?_)
    rw [BitVec.getLsbD_ushiftRight, BitVec.getLsbD_zero]
    cases i with
    | zero => simpa using hb
    | succ i => exact BitVec.getLsbD_of_ge _ _ (by omega)
  refine BitVec.eq_of_getLsbD_eq fun i hi ↦ ?_
  rw [BitVec.getLsbD_or, BitVec.getLsbD_and]
  by_cases hi31 : i = 31
  · subst hi31
    rw [hbit, Bool.true_or]
  · have hclear : (BitVec.twoPow 32 31).getLsbD i = false := by
      rw [BitVec.getLsbD_twoPow]
      simp [Ne.symm hi31]
    rw [show (0x80000000 : U32) = BitVec.twoPow 32 31 from rfl]
    rw [hclear, Bool.and_false, Bool.or_false]

theorem stable_satp :
    StableData fun s s' ↦ s.mmu.isVirtualAddressing = true → s'.mmu.satp = s.mmu.satp where
  refl := ⟨fun _ _ ↦ rfl⟩
  trans := ⟨fun s s' s'' h h' hv ↦ by
    have hs := h hv
    refine (h' ?_).trans hs
    rw [MMU.isVirtualAddressing, hs]
    exact hv⟩
  regs _ _ _ := rfl
  pc _ _ _ := rfl
  world _ _ _ := rfl
  mmu _ _ h _ := h.satp

theorem Isa.ExecFunc.exec_keeps_satp (func : ExecFunc) (inst : Inst) (offset : U32) :
    Keeps (fun s s' : State ↦ s.mmu.isVirtualAddressing = true → s'.mmu.satp = s.mmu.satp)
      (func.exec inst offset) :=
  exec_keeps_all stable_satp (fun _ _ ↦ rfl) (fun _ _ hv ↦ satp_or_of_virt (bne_iff_ne.mp hv)) func
    inst offset

theorem fence_not_translated :
    ∀ desc ∈ cmd_desc, desc.exec_func = .ExecFENCE → desc.translate_func = none := by decide

namespace Sim

variable {opts : Options} {host : Host} {s s' s₁ : State} {addr : ℕ} {trace : Trace}

/-- The round has the trace at the program counter built. -/
structure Builds (host : Host) (s s₁ : State) (insts : List Inst) : Prop where
  absent : ∀ trace, ¬ s.trace_cache.Maps s.pc trace
  fetch : ∃ c t, (Trace.fetchFrom host.fuel s.pc).run { s with trace_cache := c } = .ok insts t ∧
    s₁.mmu = t.mmu

namespace Begins

variable (h : Sound opts.jit IsTrace s) (hb : Begins opts host s addr trace s₁)

include h hb

/-- What a round has at hand: the traces that were cached, and the one it may have built. -/
theorem origin : (s₁.mmu = s.mmu ∨ ∃ insts, Builds host s s₁ insts) ∧
    ∀ key trace', s₁.trace_cache.Maps key trace' →
      ∃ trace₀, Trace.Linked opts.jit s.mmu.isVirtualAddressing trace₀ trace' ∧
        (s.trace_cache.Maps key trace₀ ∨
          key = s.pc ∧ trace₀.exec_trace_ = none ∧ Builds host s s₁ trace₀.trace_) := by
  obtain ⟨s₀, hr, ht⟩ := hb.split
  have hmode := (TraceCache.refer_keeps.of_ok hr).mode.virt
  obtain ⟨pc, s₂, hpc, h₁⟩ := run_bind_eq_ok.mp hr
  cases hpc
  obtain ⟨res, s₃, hins, h₂⟩ := run_bind_eq_ok.mp h₁
  cases h₂
  obtain ⟨v, hvalid, hd, hmaps, hfrom⟩ := LRUCache.insert_ok cache h.valid (fun _ _ _ ↦ Trace.new_cache) hins
  obtain ⟨c, trace₁, ht', -, hl⟩ := Trace.tryTranslate_run opts hvalid hd
  rw [ht'] at ht
  cases ht
  rw [hmode] at hl
  rcases hfrom with ⟨hv, c', rfl⟩ | ⟨habsent, c₁, c₂, t, hnew, rfl⟩
  · refine ⟨.inl rfl, fun key trace' hm ↦ ?_⟩
    obtain ⟨trace₀, hm₀, hlinked⟩ := hl.maps key trace' hm
    refine ⟨trace₀, hlinked, .inl ?_⟩
    rcases hmaps key trace₀ hm₀ with ⟨rfl, rfl⟩ | hold
    · exact hv
    · exact hold
  · obtain ⟨insts, rfl, hf⟩ := Trace.new_ok hnew
    have hbuilds : Builds host s { cache.set c₂ t with trace_cache := c } insts :=
      ⟨habsent, c₁, t, hf, rfl⟩
    refine ⟨.inr ⟨insts, hbuilds⟩, fun key trace' hm ↦ ?_⟩
    obtain ⟨trace₀, hm₀, hlinked⟩ := hl.maps key trace' hm
    refine ⟨trace₀, hlinked, ?_⟩
    rcases hmaps key trace₀ hm₀ with ⟨rfl, rfl⟩ | hold
    · exact .inr ⟨rfl, rfl, hbuilds⟩
    · exact .inl hold

theorem fenced (hrun : (iteration opts host).run s = .ok () s') :
    (¬ EndsInFence trace.trace_ ∧ s'.trace_cache = s₁.trace_cache ∧ s'.mmu.instTLB_ = s₁.mmu.instTLB_) ∨
      (EndsInFence trace.trace_ ∧ s'.trace_cache = s₁.trace_cache.clear ∧
        s'.mmu.instTLB_ = s₁.mmu.instTLB_.clear) := by
  obtain ⟨-, hfit, -⟩ := hb.sound h (fetches_isTrace host s)
  cases hc : trace.exec_trace_ with
  | some code =>
    obtain ⟨-, virt, hf⟩ := hfit.code code hc
    rw [hb.native hc] at hrun
    refine .inl ⟨?_, (Trace.native_cache host code).of_ok hrun,
      (Trace.native_keeps stable_inst (fun _ _ ↦ rfl) host code).of_ok hrun⟩
    rintro ⟨inst, hi, hfence⟩
    have hsup := supported_of_getFunc hf inst (List.mem_of_getLast? hi)
    have hnone := fence_not_translated (getCmdDesc inst.cmd_) (List.get_mem _ _) hfence
    rw [Inst.isTranslationSupported, hnone] at hsup
    cases hsup
  | none =>
    obtain ⟨visited, s₂, size, hx, -, rfl⟩ := hb.interpreted_ok hc hrun
    rcases execFrom_cache hfit.insts hx with ⟨hf, hcache⟩ | ⟨hf, hcache⟩
    · rcases execFrom_inst hfit.insts hx with ⟨-, htlb⟩ | ⟨hf', -⟩
      · exact .inl ⟨hf, hcache, htlb⟩
      · exact absurd hf' hf
    · rcases execFrom_inst hfit.insts hx with ⟨hf', -⟩ | ⟨-, htlb⟩
      · exact absurd hf hf'
      · exact .inr ⟨hf, hcache, htlb⟩

theorem size (hrun : (iteration opts host).run s = .ok () s') :
    s'.mmu.pmem_size_ = s.mmu.pmem_size_ := by
  have hrest := hb.keeps stable_size.data (fun _ _ ↦ rfl) ExecFunc.exec_keeps_size hrun
  exact hrest.trans (hb.sound h (fetches_isTrace host s)).2.2.mode.size

theorem satp (hrun : (iteration opts host).run s = .ok () s') (hv : s.mmu.isVirtualAddressing = true) :
    s'.mmu.satp = s.mmu.satp := by
  have hfetched := (hb.sound h (fetches_isTrace host s)).2.2.mode
  have hrest := hb.keeps stable_satp (fun _ _ _ ↦ rfl) ExecFunc.exec_keeps_satp hrun
  exact (hrest (hfetched.virt.trans hv)).trans hfetched.satp

theorem mmu_bare (hv : s.mmu.isVirtualAddressing = false) : s₁.mmu = s.mmu := by
  rcases (hb.origin h).1 with hsame | ⟨insts, hbuilds⟩
  · exact hsame
  · obtain ⟨c, t, hf, hm⟩ := hbuilds.fetch
    rw [fetchFrom_bare (s := { s with trace_cache := c }) hv] at hf
    obtain ⟨-, rfl⟩ := run_lift_eq_ok.mp hf
    exact hm

theorem blank_next (hv : s.mmu.isVirtualAddressing = false) (hblank : s.mmu.instTLB_.Blank)
    (hrun : (iteration opts host).run s = .ok () s') : s'.mmu.instTLB_.Blank := by
  rcases hb.fenced h hrun with ⟨-, -, htlb⟩ | ⟨-, -, htlb⟩
  · rw [htlb, hb.mmu_bare h hv]
    exact hblank
  · rw [htlb]
    exact LRUCache.clear_blank _

theorem coherent_fetch (hco : s.mmu.Coherent .EXEC) :
    s₁.mmu.Coherent .EXEC ∧ MMU.SameFetch s.mmu s₁.mmu := by
  rcases (hb.origin h).1 with hsame | ⟨insts, hbuilds⟩
  · rw [hsame]
    exact ⟨hco, refl s.mmu⟩
  · obtain ⟨c, t, hf, hm⟩ := hbuilds.fetch
    obtain ⟨hco', hsame, -⟩ := Trace.fetchFrom_paged (s := { s with trace_cache := c }) hco hf
    rw [hm]
    exact ⟨hco', hsame⟩

theorem coherent_rest (hco : s₁.mmu.Coherent .EXEC) (hrun : (iteration opts host).run s = .ok () s')
    (hf : ¬ EndsInFence trace.trace_) (hk : MMU.TablesKept s₁.mmu s'.mmu) :
    s'.mmu.Coherent .EXEC ∧ MMU.SameFetch s₁.mmu s'.mmu := by
  have hmode := (hb.sound h (fetches_isTrace host s)).2.2.mode
  have hsatp := hb.satp h hrun (hmode.virt.symm.trans hco.virt)
  have hsame : MMU.SameFetch s₁.mmu s'.mmu := MMU.TablesEvolve.sameFetch
    ⟨(hb.size h hrun).trans hmode.size.symm, hsatp.trans hmode.satp.symm, hk⟩
  rcases hb.fenced h hrun with ⟨-, -, htlb⟩ | ⟨hfence, -⟩
  · exact ⟨hco.follow hsame htlb, hsame⟩
  · exact absurd hfence hf

theorem faithful_next (hfaith : s.mmu.Faithful) (hrun : (iteration opts host).run s = .ok () s')
    (hk : MMU.TablesKept s₁.mmu s'.mmu) : s'.mmu.Faithful := by
  have hfetch : s₁.mmu.Faithful := by
    rcases (hb.origin h).1 with hsame | ⟨insts, hbuilds⟩
    · rw [hsame]
      exact hfaith
    · cases hv : s.mmu.isVirtualAddressing with
      | false =>
        rw [hb.mmu_bare h hv]
        exact hfaith
      | true =>
        obtain ⟨c, t, hf, hm⟩ := hbuilds.fetch
        have hco := Trace.fetch_coherent (s := { s with trace_cache := c }) hv hfaith hf
        exact .inr (hb.coherent_fetch h hco).1
  rcases hb.fenced h hrun with ⟨hf, -, htlb⟩ | ⟨-, -, htlb⟩
  · rcases hfetch with hblank | hco
    · refine .inl ?_
      rw [htlb]
      exact hblank
    · exact .inr (hb.coherent_rest h hco hrun hf hk).1
  · refine .inl ?_
    rw [htlb]
    exact LRUCache.clear_blank _

end Begins

/-- A run of the loop: round `i` begins its trace in `ρ i` and leads from `σ i` to `σ (i + 1)`. -/
structure History (opts : Options) (host : Host) (σ ρ : ℕ → State) (n : ℕ) : Prop where
  begins : ∀ i < n, ∃ addr trace, Begins opts host (σ i) addr trace (ρ i)
  round : ∀ i < n, (iteration opts host).run (σ i) = .ok () (σ (i + 1))

def FenceIn (opts : Options) (host : Host) (σ ρ : ℕ → State) (i : ℕ) : Prop :=
  ∃ addr trace, Begins opts host (σ i) addr trace (ρ i) ∧ EndsInFence trace.trace_

/-- The run starts in `σ i`, or the round before has flushed the TLBs or ran with paging off. -/
def Flushed (opts : Options) (host : Host) (σ ρ : ℕ → State) (i : ℕ) : Prop :=
  ∀ m, i = m + 1 → FenceIn opts host σ ρ m ∨ (σ m).mmu.isVirtualAddressing = false

/-- Round `i` put this trace into the cache, where it has been since. -/
structure CachedSince (σ : ℕ → State) (i n : ℕ) (key : U32) (insts : List Inst) : Prop where
  before : i < n
  absent : ∀ trace, ¬ (σ i).trace_cache.Maps key trace
  since : ∀ k, i < k → k ≤ n → ∃ trace, (σ k).trace_cache.Maps key trace ∧ trace.trace_ = insts

/-- Paging has not been turned on since round `i`, no byte of the words fetched in it has changed,
and with paging on no page table has changed since a flush before this round. -/
structure Undisturbed (opts : Options) (host : Host) (σ ρ : ℕ → State) (i n : ℕ) (key : U32)
    (insts : List Inst) : Prop where
  mode : (σ n).mmu.isVirtualAddressing = (σ i).mmu.isVirtualAddressing
  words : ∀ b ∈ (σ i).mmu.codeBytes key insts.length,
    (ρ i).mmu.pmem_ b = (σ i).mmu.pmem_ b ∧ (σ n).mmu.pmem_ b = (σ i).mmu.pmem_ b
  tables : (σ n).mmu.isVirtualAddressing = true → ∃ j ≤ i, Flushed opts host σ ρ j ∧
    ∀ k, j ≤ k → k < n → MMU.TablesKept (ρ k).mmu (σ (k + 1)).mmu

namespace History

variable {σ ρ : ℕ → State} {n cap : ℕ} (h : History opts host σ ρ n)
  (hcache : (σ 0).trace_cache = .new cap)

include h hcache

theorem sound {k : ℕ} (hk : k ≤ n) : Sound opts.jit IsTrace (σ k) := by
  induction k with
  | zero => exact .new cap hcache
  | succ k ih =>
    exact iteration_sound (ih (Nat.le_of_succ_le hk)) (fetches_isTrace host (σ k)) (fun _ ht ↦ ht)
      (h.round k hk)

theorem size {k : ℕ} (hk : k ≤ n) : (σ k).mmu.pmem_size_ = (σ 0).mmu.pmem_size_ := by
  induction k with
  | zero => rfl
  | succ k ih =>
    obtain ⟨addr, trace, hb⟩ := h.begins k hk
    have hs := h.sound hcache (Nat.le_of_succ_le hk)
    exact (hb.size hs (h.round k hk)).trans (ih (Nat.le_of_succ_le hk))

theorem virt {k l : ℕ} (hkl : k ≤ l) (hl : l ≤ n) (hv : (σ k).mmu.isVirtualAddressing = true) :
    (σ l).mmu.isVirtualAddressing = true := by
  induction l, hkl using Nat.le_induction with
  | base => exact hv
  | succ l _ ih =>
    have hl' := ih (Nat.le_of_succ_le hl)
    obtain ⟨addr, trace, hb⟩ := h.begins l hl
    have hsatp := hb.satp (h.sound hcache (Nat.le_of_succ_le hl)) (h.round l hl) hl'
    rw [MMU.isVirtualAddressing, hsatp]
    exact hl'

theorem blank {icap : ℕ} (htlb : (σ 0).mmu.instTLB_ = .new icap) {k : ℕ} (hk : k ≤ n)
    (hv : (σ k).mmu.isVirtualAddressing = false) : (σ k).mmu.instTLB_.Blank := by
  induction k with
  | zero =>
    rw [htlb]
    exact LRUCache.new_blank icap
  | succ k ih =>
    have hle := Nat.le_of_succ_le hk
    have hvk : (σ k).mmu.isVirtualAddressing = false := by
      rw [← Bool.not_eq_true]
      intro hon
      rw [h.virt hcache (Nat.le_succ k) hk hon] at hv
      cases hv
    obtain ⟨addr, trace, hb⟩ := h.begins k hk
    exact hb.blank_next (h.sound hcache hle) hvk (ih hle hvk) (h.round k hk)

/-- Every cached trace was built in some round after the last FENCE, and has been cached since. -/
theorem cached {key : U32} {trace : Trace} (hm : (σ n).trace_cache.Maps key trace) :
    ∃ i, CachedSince σ i n key trace.trace_ ∧ (∀ m < n, FenceIn opts host σ ρ m → m < i) ∧
      key = (σ i).pc ∧ Builds host (σ i) (ρ i) trace.trace_ ∧
      ∀ code, trace.exec_trace_ = some code → ∃ k, i ≤ k ∧ k < n ∧
        Translator.getFunc trace.trace_ (σ k).mmu.isVirtualAddressing = some code := by
  induction n generalizing trace with
  | zero =>
    rw [hcache] at hm
    obtain ⟨e, he, -⟩ := hm
    cases he
  | succ n ih =>
    have h' : History opts host σ ρ n :=
      ⟨fun i hi ↦ h.begins i (Nat.lt_succ_of_lt hi), fun i hi ↦ h.round i (Nat.lt_succ_of_lt hi)⟩
    have hs := h'.sound hcache le_rfl
    obtain ⟨addr, trace₁, hb⟩ := h.begins n (Nat.lt_succ_self n)
    rcases hb.fenced hs (h.round n (Nat.lt_succ_self n)) with ⟨hf, hkept, -⟩ | ⟨-, hclear, -⟩
    · have hnow : ∀ k, n < k → k ≤ n + 1 → ∃ trace', (σ k).trace_cache.Maps key trace' ∧
          trace'.trace_ = trace.trace_ := by
        intro k hnk hk
        obtain rfl : k = n + 1 := by omega
        exact ⟨trace, hm, rfl⟩
      have hfence : ¬ FenceIn opts host σ ρ n := by
        rintro ⟨addr', trace', hb', hf'⟩
        obtain ⟨-, rfl, -⟩ := hb.unique hb'
        exact hf hf'
      rw [hkept] at hm
      obtain ⟨trace₀, hl, hold | ⟨rfl, hnone, hbuilds⟩⟩ := (hb.origin hs).2 key trace hm
      · obtain ⟨i, hc, hlast, hpc, hbuilds, hcode⟩ := ih h' hold
        rw [← hl.insts] at hc hbuilds hcode
        refine ⟨i, ⟨Nat.lt_succ_of_lt hc.before, hc.absent, fun k hik hk ↦ ?_⟩, fun m hm hfm ↦ ?_,
          hpc, hbuilds, fun code hsome ↦ ?_⟩
        · rcases Nat.lt_succ_iff_lt_or_eq.mp (Nat.lt_succ_of_le hk) with hlt | rfl
          · exact hc.since k hik (Nat.le_of_lt_succ hlt)
          · exact hnow _ (Nat.lt_succ_self n) le_rfl
        · rcases Nat.lt_succ_iff_lt_or_eq.mp hm with hlt | rfl
          · exact hlast m hlt hfm
          · exact absurd hfm hfence
        · rcases hl.code code hsome with hprev | ⟨-, hnew⟩
          · obtain ⟨k, hik, hkn, hk⟩ := hcode code hprev
            exact ⟨k, hik, Nat.lt_succ_of_lt hkn, hk⟩
          · rw [← hl.insts] at hnew
            exact ⟨n, Nat.le_of_lt hc.before, Nat.lt_succ_self n, hnew⟩
      · rw [← hl.insts] at hbuilds
        refine ⟨n, ⟨Nat.lt_succ_self n, hbuilds.absent, hnow⟩, fun m hm hfm ↦ ?_, rfl, hbuilds,
          fun code hsome ↦ ?_⟩
        · rcases Nat.lt_succ_iff_lt_or_eq.mp hm with hlt | rfl
          · exact hlt
          · exact absurd hfm hfence
        · rcases hl.code code hsome with hprev | ⟨-, hnew⟩
          · rw [hnone] at hprev
            cases hprev
          · rw [← hl.insts] at hnew
            exact ⟨n, le_rfl, Nat.lt_succ_self n, hnew⟩
    · rw [hclear] at hm
      exact absurd hm (LRUCache.not_maps_clear _ _ _)

theorem faithful {icap : ℕ} (htlb : (σ 0).mmu.instTLB_ = .new icap) {j : ℕ}
    (hj : Flushed opts host σ ρ j)
    (hkept : ∀ k, j ≤ k → k < n → MMU.TablesKept (ρ k).mmu (σ (k + 1)).mmu) {k : ℕ} (hjk : j ≤ k)
    (hk : k ≤ n) : (σ k).mmu.Faithful := by
  induction k, hjk using Nat.le_induction with
  | base =>
    refine .inl ?_
    cases j with
    | zero =>
      rw [htlb]
      exact LRUCache.new_blank icap
    | succ m =>
      obtain ⟨addr, trace, hb⟩ := h.begins m hk
      have hs := h.sound hcache (Nat.le_of_succ_le hk)
      rcases hj m rfl with ⟨addr', trace', hb', hf⟩ | hv
      · obtain ⟨-, rfl, -⟩ := hb.unique hb'
        rcases hb.fenced hs (h.round m hk) with ⟨hnf, -⟩ | ⟨-, -, hclear⟩
        · exact absurd hf hnf
        · rw [hclear]
          exact LRUCache.clear_blank _
      · exact hb.blank_next hs hv (h.blank hcache htlb (Nat.le_of_succ_le hk) hv) (h.round m hk)
  | succ k hjk ih =>
    have hle := Nat.le_of_succ_le hk
    obtain ⟨addr, trace, hb⟩ := h.begins k hk
    exact hb.faithful_next (h.sound hcache hle) (ih hle) (h.round k hk) (hkept k hjk hk)

theorem sameFetch {i : ℕ} (hin : i < n) (hfence : ∀ m < n, FenceIn opts host σ ρ m → m < i)
    (hco : (ρ i).mmu.Coherent .EXEC)
    (hkept : ∀ k, i ≤ k → k < n → MMU.TablesKept (ρ k).mmu (σ (k + 1)).mmu) :
    (σ n).mmu.Coherent .EXEC ∧ MMU.SameFetch (ρ i).mmu (σ n).mmu := by
  have hrest : ∀ k, i ≤ k → k < n → (ρ k).mmu.Coherent .EXEC →
      (σ (k + 1)).mmu.Coherent .EXEC ∧ MMU.SameFetch (ρ k).mmu (σ (k + 1)).mmu := by
    intro k hik hk hcok
    obtain ⟨addr, trace, hb⟩ := h.begins k hk
    refine hb.coherent_rest (h.sound hcache hk.le) hcok (h.round k hk) (fun hf ↦ ?_) (hkept k hik hk)
    exact absurd (hfence k hk ⟨addr, trace, hb, hf⟩) (Nat.not_lt.mpr hik)
  suffices hall : ∀ k, i + 1 ≤ k → k ≤ n →
      (σ k).mmu.Coherent .EXEC ∧ MMU.SameFetch (ρ i).mmu (σ k).mmu from hall n hin le_rfl
  intro k hik
  induction k, hik using Nat.le_induction with
  | base => exact fun hk ↦ hrest i le_rfl hk hco
  | succ k hik ih =>
    intro hk
    obtain ⟨hcok, hsame⟩ := ih (Nat.le_of_succ_le hk)
    obtain ⟨addr, trace, hb⟩ := h.begins k hk
    obtain ⟨hcor, hfetch⟩ := hb.coherent_fetch (h.sound hcache (Nat.le_of_succ_le hk)) hcok
    obtain ⟨hnext, hlast⟩ := hrest k (Nat.le_of_succ_le hik) hk hcor
    exact ⟨hnext, IsTrans.trans _ _ _ (IsTrans.trans _ _ _ hsame hfetch) hlast⟩

theorem rebuilds {icap : ℕ} (htlb : (σ 0).mmu.instTLB_ = .new icap) {i : ℕ} (hin : i < n)
    (hfence : ∀ m < n, FenceIn opts host σ ρ m → m < i) {insts : List Inst}
    (hbuilds : Builds host (σ i) (ρ i) insts)
    (hu : Undisturbed opts host σ ρ i n (σ i).pc insts) : Trace.Rebuilds host (σ n) (σ i).pc insts := by
  obtain ⟨c, t, hf, ht⟩ := hbuilds.fetch
  obtain ⟨htrace, hlen⟩ := Trace.fetchFrom_isTrace hf
  cases hv : (σ i).mmu.isVirtualAddressing with
  | false =>
    rw [fetchFrom_bare (s := { σ i with trace_cache := c }) hv] at hf
    obtain ⟨hb, -⟩ := run_lift_eq_ok.mp hf
    have hsize := (h.size hcache le_rfl).trans (h.size hcache hin.le).symm
    refine Trace.rebuilds_bare (hu.mode.trans hv) htrace ?_ hlen
    refine (MMU.buildFrom_ok hb).2.congr hsize fun j hj b hl hb ↦ ?_
    refine (hu.words b ⟨j, hj, _, ?_, hl, hb⟩).2
    rw [MMU.codePtr, hv]
    rfl
  | true =>
    obtain ⟨j, hji, hflushed, hkept⟩ := hu.tables (hu.mode.trans hv)
    have hfaith := h.faithful hcache htlb hflushed hkept hji hin.le
    have hco := Trace.fetch_coherent (s := { σ i with trace_cache := c }) hv hfaith hf
    obtain ⟨hcot, hfetch, -, hmapped⟩ := Trace.fetchFrom_paged (s := { σ i with trace_cache := c }) hco hf
    rw [← ht] at hcot hfetch hmapped
    obtain ⟨hcon, hsame⟩ := h.sameFetch hcache hin hfence hcot fun k hik hk ↦ hkept k (hji.trans hik) hk
    refine Trace.rebuilds_paged hcon htrace ?_ hlen
    refine (hmapped fun b hb ↦ (hu.words b hb).1).follow hcot.virt hsame fun b hb ↦ ?_
    rw [hfetch.codeBytes] at hb
    obtain ⟨hnow, hlater⟩ := hu.words b hb
    exact hlater.trans hnow.symm

end History

def Succeeds {α : Type} : EStateM.Result Stop State α → Bool
  | .ok _ _ => true
  | .error _ _ => false

def course (opts : Options) (host : Host) (s : State) : ℕ → State
  | 0 => s
  | k + 1 => final ((iteration opts host).run (course opts host s k))

def begun (opts : Options) (host : Host) (s : State) (k : ℕ) : State :=
  final ((do
    let addr ← TraceCache.refer host
    Trace.tryTranslate opts addr
    return addr : Run ℕ).run (course opts host s k))

theorem history_course {n cap : ℕ} (hcache : s.trace_cache = .new cap)
    (hok : ∀ i < n, Succeeds ((iteration opts host).run (course opts host s i)) = true) :
    History opts host (course opts host s) (begun opts host s) n := by
  have hround : ∀ i < n, (iteration opts host).run (course opts host s i) =
      .ok () (course opts host s (i + 1)) := by
    intro i hi
    have hi' := hok i hi
    rw [course]
    cases hr : (iteration opts host).run (course opts host s i) with
    | ok u t => rfl
    | error e t =>
      rw [hr] at hi'
      cases hi'
  have hsound : ∀ i ≤ n, Sound opts.jit IsTrace (course opts host s i) := by
    intro i
    induction i with
    | zero => exact fun _ ↦ .new cap hcache
    | succ i ih =>
      intro hi
      exact iteration_sound (ih (Nat.le_of_succ_le hi)) (fetches_isTrace host _) (fun _ ht ↦ ht)
        (hround i hi)
  refine ⟨fun i hi ↦ ?_, hround⟩
  rcases begins_or_error (hsound i hi.le) (fetches_isTrace host _) with ⟨e, t, -, he⟩ |
    ⟨addr, trace, t, hb⟩
  · rw [hround i hi] at he
    cases he
  · have ht : begun opts host s i = t := by rw [begun, hb.run, final]
    rw [ht]
    exact ⟨addr, trace, hb⟩

theorem History.pmem_of_exec {σ ρ : ℕ → State} {n : ℕ} (h : History opts host σ ρ n) {k : ℕ}
    (hk : k < n) {insts : List Inst}
    (ht : ∀ e ∈ (ρ k).trace_cache.entries_, e.second.trace_ = insts ∧ e.second.exec_trace_.isNone = true)
    (hx : ∀ s, ∃ visited s', (execFrom 0 insts).run s = .ok visited s' ∧ s'.mmu.pmem_ = s.mmu.pmem_) :
    (σ (k + 1)).mmu.pmem_ = (ρ k).mmu.pmem_ := by
  obtain ⟨addr, trace, hb⟩ := h.begins k hk
  obtain ⟨e, he, rfl⟩ := Option.map_eq_some_iff.mp hb.alive
  obtain ⟨hi, hnone⟩ := ht e (List.mem_of_find?_eq_some he)
  obtain ⟨visited, t, hrun, hmem⟩ := hx (ρ k)
  obtain ⟨visited', t', size, hrun', -, hu⟩ :=
    hb.interpreted_ok (Option.isNone_iff_eq_none.mp hnone) (h.round k hk)
  rw [hi, hrun] at hrun'
  cases hrun'
  rw [hu]
  exact hmem

theorem tablesKept_of_pmem {m m' : MMU} (h : m'.pmem_ = m.pmem_) : MMU.TablesKept m m' := by
  intro ptr _
  refine .inl ?_
  rw [MMU.pteAt, MMU.pteAt, MMU.readMem, MMU.readMem, h]

/-- The words from address 0 on, and the first entry of the page table at 0x17000. -/
def withTable (leaf : U32) (words : List U32) : State :=
  let mem := Bytes.write (n := 4) (fun _ ↦ 0) 0x17000 leaf
  let place (mem : ℕ → U8) (w : U32 × ℕ) : ℕ → U8 := Bytes.write (n := 4) mem (4 * w.2) w.1
  { onePage (fun _ ↦ 0) (.new 1) with
    mmu := ⟨.new 4, .new 4, 0x19000, words.zipIdx.foldl place mem, 0x17#32⟩ }

/-- Between two rounds every cached trace was built after the last FENCE, and unless paging has been
turned on since, its words have changed or a page table has, it is what the constructor would build
again, and its native code is what the translator would make of it again. -/
theorem cached_traces_current {σ ρ : ℕ → State} {n cap icap : ℕ} (h : History opts host σ ρ n)
    (hcache : (σ 0).trace_cache = .new cap) (htlb : (σ 0).mmu.instTLB_ = .new icap) {key : U32}
    {trace : Trace} (hm : (σ n).trace_cache.Maps key trace) :
    ∃ i, CachedSince σ i n key trace.trace_ ∧ (∀ m < n, FenceIn opts host σ ρ m → m < i) ∧
      (Undisturbed opts host σ ρ i n key trace.trace_ →
        Trace.Rebuilds host (σ n) key trace.trace_ ∧
        ∀ code, trace.exec_trace_ = some code →
          Translator.getFunc trace.trace_ (σ n).mmu.isVirtualAddressing = some code) := by
  obtain ⟨i, hc, hfence, rfl, hbuilds, hcode⟩ := h.cached hcache hm
  refine ⟨i, hc, hfence, fun hu ↦ ⟨h.rebuilds hcache htlb hc.before hfence hbuilds hu, ?_⟩⟩
  intro code hsome
  obtain ⟨k, hik, hkn, hk⟩ := hcode code hsome
  have hmode : (σ k).mmu.isVirtualAddressing = (σ n).mmu.isVirtualAddressing := by
    cases hv : (σ k).mmu.isVirtualAddressing with
    | true => rw [h.virt hcache hkn.le le_rfl hv]
    | false =>
      have hoff : (σ i).mmu.isVirtualAddressing ≠ true := by
        intro hon
        rw [h.virt hcache hik hkn.le hon] at hv
        cases hv
      rw [hu.mode, Bool.eq_false_iff.mpr hoff]
  rw [← hmode]
  exact hk

/-- Paging is turned on, and a FENCE follows. -/
def pagingFenced : State := withTable 0xF [0x800000b7, 0x18009073, 0x0ff0000f, 0x0000006f]

theorem selfJump_pmem (s : State) : ∃ visited s', (execFrom 0 [selfJumpInst]).run s = .ok visited s' ∧
    s'.mmu.pmem_ = s.mmu.pmem_ := ⟨_, _, rfl, rfl⟩

theorem cached_traces_current_fenced : ∃ σ ρ trace, σ 0 = pagingFenced ∧
    History ⟨false, 100, 0⟩ (idleHost 4) σ ρ 2 ∧ (σ 2).trace_cache.Maps 12 trace ∧
    (σ 2).mmu.isVirtualAddressing = true ∧ Trace.Rebuilds (idleHost 4) (σ 2) 12 trace.trace_ := by
  let σ := course ⟨false, 100, 0⟩ (idleHost 4) pagingFenced
  let ρ := begun ⟨false, 100, 0⟩ (idleHost 4) pagingFenced
  obtain ⟨hok, ⟨e, he, hkey, hinsts⟩, hnone, ht, hptr, hbytes, hoff, hon, hon'⟩ :
      (∀ i < 2, Succeeds ((iteration ⟨false, 100, 0⟩ (idleHost 4)).run (σ i)) = true) ∧
      (∃ e ∈ (σ 2).trace_cache.entries_, e.first = 12 ∧ e.second.trace_ = [selfJumpInst]) ∧
      (σ 1).trace_cache.entries_.length = 0 ∧
      (∀ e ∈ (ρ 1).trace_cache.entries_,
        e.second.trace_ = [selfJumpInst] ∧ e.second.exec_trace_.isNone = true) ∧
      ((σ 1).mmu.codePtr (12 + BitVec.ofNat 32 (4 * 0))).toOption = some 12 ∧
      (∀ b < 16, (ρ 1).mmu.pmem_ b = (σ 1).mmu.pmem_ b ∧ (σ 2).mmu.pmem_ b = (σ 1).mmu.pmem_ b) ∧
      (σ 0).mmu.isVirtualAddressing = false ∧ (σ 1).mmu.isVirtualAddressing = true ∧
      (σ 2).mmu.isVirtualAddressing = true := by decide +kernel
  have h : History ⟨false, 100, 0⟩ (idleHost 4) σ ρ 2 := @history_course _ _ pagingFenced 2 1 rfl hok
  have hm : (σ 2).trace_cache.Maps 12 e.second := ⟨e, he, hkey, rfl⟩
  obtain ⟨i, hc, -, hcurrent⟩ := @cached_traces_current _ _ σ ρ 2 1 4 h rfl rfl 12 e.second hm
  have hi := hc.before
  obtain rfl : i = 1 := by
    by_contra hne
    obtain ⟨trace, ⟨e', he', -⟩, -⟩ := hc.since 1 (by omega) (by omega)
    rw [List.length_eq_zero_iff.mp hnone] at he'
    cases he'
  have hrebuilds := hcurrent ⟨hon'.trans hon.symm, ?_, fun _ ↦ ⟨1, le_rfl, ?_, ?_⟩⟩
  · exact ⟨σ, ρ, e.second, rfl, h, hm, hon', hrebuilds.1⟩
  · rintro b ⟨j, hj, p, hp, hl, hu⟩
    rw [hinsts] at hj
    obtain rfl : j = 0 := Nat.lt_one_iff.mp hj
    rw [hp] at hptr
    cases hptr
    exact hbytes b hu
  · rintro m hm
    cases hm
    exact .inr hoff
  · intro k hk hk2
    obtain rfl : k = 1 := by omega
    exact tablesKept_of_pmem (h.pmem_of_exec hk2 ht selfJump_pmem)

/-- Paging is turned on, and the code goes on where nothing is mapped. -/
def pagingOn : State := withTable 0 [0x800000b7, 0x18009073, 0x0000006f]

/-- Paging is turned on and a FENCE follows, then the code unmaps itself and goes on. -/
def unmapping : State :=
  withTable 0xF [0x800000b7, 0x18009073, 0x00017137, 0x0ff0000f, 0x00012023, 0x0000006f]

/-- If no store changes memory after they were built, and `P` holds, traces are what would be built. -/
def CurrentUnlessStored (P : (ℕ → State) → ℕ → ℕ → Prop) : Prop :=
  ∀ (opts : Options) (host : Host) (σ ρ : ℕ → State) (i n cap icap : ℕ) (key : U32) (trace : Trace),
    History opts host σ ρ n → (σ 0).trace_cache = .new cap → (σ 0).mmu.instTLB_ = .new icap →
    (σ n).trace_cache.Maps key trace → CachedSince σ i n key trace.trace_ →
    (∀ k, i ≤ k → k < n → (σ (k + 1)).mmu.pmem_ = (ρ k).mmu.pmem_) → P σ i n →
    Trace.Rebuilds host (σ n) key trace.trace_

theorem not_currentUnlessStored {P : (ℕ → State) → ℕ → ℕ → Prop} {s : State} {cap icap m : ℕ} {key : U32}
    {insts : List Inst} (hcache : s.trace_cache = .new cap) (htlb : s.mmu.instTLB_ = .new icap)
    (hx : ∀ s, ∃ visited s', (execFrom 0 insts).run s = .ok visited s' ∧ s'.mmu.pmem_ = s.mmu.pmem_)
    (hP : P (course opts host s) m (m + 1))
    (hruns : (∀ i < m + 1, Succeeds ((iteration opts host).run (course opts host s i)) = true) ∧
      (∃ e ∈ (course opts host s (m + 1)).trace_cache.entries_, e.first = key ∧ e.second.trace_ = insts) ∧
      (∀ e ∈ (course opts host s m).trace_cache.entries_, e.first ≠ key) ∧
      (∀ e ∈ (begun opts host s m).trace_cache.entries_,
        e.second.trace_ = insts ∧ e.second.exec_trace_.isNone = true) ∧
      Succeeds ((Trace.new host).run { course opts host s (m + 1) with
        pc := key, mmu := (course opts host s (m + 1)).mmu.flush }) = false) : ¬ CurrentUnlessStored P := by
  intro hall
  obtain ⟨hok, hm, habsent, ht, hfail⟩ := hruns
  have h := history_course hcache hok
  obtain ⟨e, he, rfl, rfl⟩ := hm
  have hmaps : (course opts host s (m + 1)).trace_cache.Maps e.first e.second := ⟨e, he, rfl, rfl⟩
  have hsince : CachedSince (course opts host s) m (m + 1) e.first e.second.trace_ := by
    refine ⟨Nat.lt_succ_self m, ?_, fun k hmk hk ↦ ?_⟩
    · rintro trace ⟨e', he', hfirst, -⟩
      exact habsent e' he' hfirst
    · obtain rfl : k = m + 1 := by omega
      exact ⟨_, hmaps, rfl⟩
  have hpmem : ∀ k, m ≤ k → k < m + 1 →
      (course opts host s (k + 1)).mmu.pmem_ = (begun opts host s k).mmu.pmem_ := by
    intro k hmk hk
    obtain rfl : k = m := by omega
    exact h.pmem_of_exec hk ht hx
  obtain ⟨s', hrun⟩ := (hall opts host _ _ m (m + 1) cap icap _ _ h hcache htlb hmaps hsince hpmem hP).walked
  rw [hrun] at hfail
  cases hfail

theorem pagingOn_pmem (s : State) : ∃ visited s', (execFrom 0 [genU ⟨.LUI, by decide⟩ 1 0x80000000,
    genI ⟨.CSRRW, by decide⟩ 0 1 0x180, selfJumpInst]).run s = .ok visited s' ∧
    s'.mmu.pmem_ = s.mmu.pmem_ := ⟨_, _, rfl, rfl⟩

theorem flush_needed : ¬ CurrentUnlessStored (fun _ _ _ ↦ True) ∧
    ¬ CurrentUnlessStored fun σ i n ↦
      (σ n).mmu.isVirtualAddressing = (σ i).mmu.isVirtualAddressing := by
  constructor
  · exact @not_currentUnlessStored ⟨false, 100, 0⟩ (idleHost 6) _ pagingOn 1 4 0 0 _ rfl rfl
      pagingOn_pmem trivial (by decide +kernel)
  · exact @not_currentUnlessStored ⟨false, 100, 0⟩ (idleHost 6) _ unmapping 1 4 2 20 _ rfl rfl
      selfJump_pmem (by decide +kernel) (by decide +kernel)

end Sim

end RiscvSim
