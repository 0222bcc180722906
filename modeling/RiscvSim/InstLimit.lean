import RiscvSim.Lifetime
import RiscvSim.Finishes

namespace RiscvSim

open Isa Ir State Results

namespace Sim

variable {opts : Options} {host : Host} {s s₀ s₁ t u : State} {addr : ℕ} {trace : Trace}

/-- The round from `s` goes over the trace it begins once and counts it: the trace is clean, native
code does not jump back to its start, and the count does not wrap around. -/
structure Prompt (host : Host) (s : State) (trace : Trace) : Prop where
  clean : Clean trace
  once : trace.exec_trace_ = none ∨ ¬ Loops trace.trace_
  fits : ∀ code, trace.exec_trace_ = some code → code.length ≤ host.fuel
  wrap : s.executed_insts.toNat + trace.trace_.length < 2 ^ 64

def Constructs (host : Host) (s : State) : Prop :=
  ∀ c u, (Trace.new host).run { s with trace_cache := c } ≠ .error .outOfFuel u

section

variable (h : Sound opts.jit IsTrace s)

include h

theorem refer_finishes (hnew : Constructs host s) {e : Stop}
    (hrun : (TraceCache.refer host).run s = .error e u) : e ≠ .outOfFuel := by
  have hins : (LRUCache.insert cache s.pc (Trace.new host)).run s = .error e u :=
    run_bind_pure_eq_error.mp hrun
  rcases LRUCache.insert_error cache h.valid hins with rfl | ⟨c, hc⟩
  · nofun
  · rintro rfl
    exact hnew c u hc

variable (hb : Begins opts host s addr trace s₁) (hp : Prompt host s trace)
  (hapart : host.layout.Apart)

include hb hp hapart

theorem Begins.finishes {e : Stop} (hrun : (iteration opts host).run s = .error e u) :
    e ≠ .outOfFuel := by
  obtain ⟨-, hfit, -⟩ := hb.sound h (fetches_isTrace host s)
  cases hc : trace.exec_trace_ with
  | none =>
    rw [hb.interpreted hc] at hrun
    cases hx : (execFrom 0 trace.trace_).run s₁ with
    | error e' t =>
      rw [run_bind_of_error hx] at hrun
      cases hrun
      exact execFrom_finishes 0 trace.trace_ _ _ _ hx
    | ok visited t =>
      obtain ⟨n, hn⟩ := TraceCache.size_run host addr t
      rw [run_bind_of_ok hx, run_bind_of_ok hn] at hrun
      cases hrun
  | some code =>
    obtain ⟨-, virt, hf⟩ := hfit.code code hc
    have honce : ¬ Loops trace.trace_ := hp.once.resolve_left (by rw [hc]; nofun)
    rw [hb.native hc] at hrun
    change Trace.native host code s₁ = _ at hrun
    unfold Trace.native at hrun
    cases hx : (X86.run (Native.env host.layout host.clobber) .outOfFuel code host.fuel code).run
        (Native.start host.layout (host.regs s₁) s₁) with
    | ok _ m =>
      rw [hx] at hrun
      cases hrun
    | error e' m =>
      rw [hx] at hrun
      cases hrun
      rw [halts_once hapart hfit.insts hf honce host.fuel (hp.fits code hc) _ _ _ hx]
      nofun

theorem Begins.advances (hrun : (iteration opts host).run s = .ok () u) : 1 ≤ trace.trace_.length ∧
    u.executed_insts.toNat = s.executed_insts.toNat + trace.trace_.length := by
  have hQ := fetches_isTrace host s
  obtain ⟨-, hfit, -⟩ := hb.sound h hQ
  obtain ⟨p, -, hone, hinsts⟩ := hb.insts h hQ (fun _ ↦ id) hapart hp.clean hrun
  have hpos : 1 ≤ trace.trace_.length := List.length_pos_iff.mpr hfit.insts.ne_nil
  have hwrap := hp.wrap
  refine ⟨hpos, ?_⟩
  rw [hinsts, hone hp.once, Nat.one_mul, BitVec.toNat_add, BitVec.toNat_ofNat]
  omega

end

/-- A run of the loop goes through rounds to one that stops it, or has used up its fuel. -/
theorem execute_rounds {n : ℕ} (hr : Rounds opts host s₀ n s) (fuel : ℕ) :
    match (execute opts host fuel).run s with
    | .ok () u => ∃ m t, Rounds opts host s₀ m t ∧ (iteration opts host).run t = .ok () u ∧
        LimitReached opts u
    | .error e u => (∃ m t, Rounds opts host s₀ m t ∧ (iteration opts host).run t = .error e u) ∨
        (e = .outOfFuel ∧ Rounds opts host s₀ (n + fuel) u) := by
  induction fuel generalizing n s with
  | zero => exact .inr ⟨rfl, hr⟩
  | succ fuel ih =>
    cases hi : (iteration opts host).run s with
    | error e u =>
      rw [execute, run_bind_of_error hi]
      exact .inl ⟨n, s, hr, hi⟩
    | ok _ t =>
      rw [execute, run_bind_of_ok hi, run_bind_of_ok (EStateM.run_get t)]
      by_cases hlim : LimitReached opts t
      · rw [if_pos (show opts.max_insts ≠ 0 ∧ opts.max_insts ≤ t.executed_insts from hlim)]
        exact ⟨n, s, hr, hi, hlim⟩
      · rw [if_neg (show ¬ (opts.max_insts ≠ 0 ∧ opts.max_insts ≤ t.executed_insts) from hlim)]
        have hnext := ih (hr.next hi hlim)
        rw [Nat.add_right_comm] at hnext
        exact hnext

/-- A round that did not reach the limit leaves the count below it. -/
theorem Rounds.under_limit (hstart : s₀.executed_insts < opts.max_insts) {n : ℕ}
    (hr : Rounds opts host s₀ n s) : s.executed_insts < opts.max_insts := by
  cases hr with
  | zero => exact hstart
  | next _ _ hlim =>
    by_contra hge
    refine hlim ⟨?_, BitVec.not_lt.mp hge⟩
    rintro hz
    rw [hz] at hstart
    exact absurd hstart BitVec.not_lt_zero

section

variable {cap : ℕ} (hcache : s₀.trace_cache = .new cap) (hapart : host.layout.Apart)
  (hprompt : ∀ n t addr trace t₁, Rounds opts host s₀ n t → Begins opts host t addr trace t₁ →
    Prompt host t trace)

include hcache hapart hprompt

theorem Rounds.counted {n : ℕ} (hr : Rounds opts host s₀ n s) :
    s₀.executed_insts.toNat + n ≤ s.executed_insts.toNat := by
  induction hr with
  | zero => exact le_rfl
  | @next n t u ht hrun hlim ih =>
    have hsound := ht.sound hcache
    rcases begins_or_error hsound (fetches_isTrace host t) with ⟨e, u', -, he⟩ | ⟨addr, trace, t₁, hb⟩
    · rw [he] at hrun
      cases hrun
    obtain ⟨hpos, hadd⟩ := hb.advances hsound (hprompt n t addr trace t₁ ht hb) hapart hrun
    omega

variable (hstart : s₀.executed_insts < opts.max_insts)

include hstart

/-- With a limit the loop ends, and one that ends at the limit has gone beyond it by less than
the length of the last trace. -/
theorem execute_limited (hnew : ∀ n t, Rounds opts host s₀ n t → Constructs host t) :
    (∃ N, ∀ fuel u, N ≤ fuel → (execute opts host fuel).run s₀ ≠ .error .outOfFuel u) ∧
    ∀ fuel u, (execute opts host fuel).run s₀ = .ok () u → ∃ n t addr trace t₁,
      Rounds opts host s₀ n t ∧ Begins opts host t addr trace t₁ ∧
      (iteration opts host).run t = .ok () u ∧ opts.max_insts ≤ u.executed_insts ∧
      u.executed_insts.toNat < opts.max_insts.toNat + trace.trace_.length := by
  refine ⟨⟨opts.max_insts.toNat, fun fuel u hfuel hrun ↦ ?_⟩, fun fuel u hrun ↦ ?_⟩
  · have hall := execute_rounds (.zero : Rounds opts host s₀ 0 s₀) fuel
    rw [hrun] at hall
    rcases hall with ⟨m, t, hr, hi⟩ | ⟨-, hr⟩
    · have hsound := hr.sound hcache
      rcases begins_or_error hsound (fetches_isTrace host t) with ⟨e, u', hrefer, he⟩ | ⟨addr, trace, t₁, hb⟩
      · rw [he] at hi
        cases hi
        exact refer_finishes hsound (hnew m t hr) hrefer rfl
      · exact hb.finishes hsound (hprompt m t addr trace t₁ hr hb) hapart hi rfl
    · have hle := hr.counted hcache hapart hprompt
      have hlt : u.executed_insts.toNat < opts.max_insts.toNat := hr.under_limit hstart
      omega
  · have hall := execute_rounds (.zero : Rounds opts host s₀ 0 s₀) fuel
    rw [hrun] at hall
    obtain ⟨m, t, hr, hi, hlim⟩ := hall
    have hsound := hr.sound hcache
    rcases begins_or_error hsound (fetches_isTrace host t) with ⟨e, u', -, he⟩ | ⟨addr, trace, t₁, hb⟩
    · rw [he] at hi
      cases hi
    obtain ⟨-, hadd⟩ := hb.advances hsound (hprompt m t addr trace t₁ hr hb) hapart hi
    have hlt : t.executed_insts.toNat < opts.max_insts.toNat := hr.under_limit hstart
    exact ⟨m, t, addr, trace, t₁, hr, hb, hi, hlim.2, by omega⟩

end

theorem constructs_of_codeAt (hv : s.mmu.isVirtualAddressing = false) {insts : List Inst}
    (ht : IsTrace insts) (hcode : s.mmu.CodeAt s.pc insts) (hf : insts.length ≤ host.fuel) :
    Constructs host s := by
  intro c u
  have hbuild : s.mmu.buildFrom host.fuel s.pc = .ok insts := MMU.buildFrom_of_codeAt ht hcode hf
  rw [new_bare (s := { s with trace_cache := c }) hv host]
  dsimp only
  rw [hbuild]
  nofun

theorem nopLoop.prompt {max : U64} {n : ℕ} (hmax : max.toNat < 2 ^ 63)
    (hlt : s.executed_insts < max) (hat : nopLoop.At n s)
    (hb : Begins ⟨true, 1, max⟩ (apartHost 4) s addr trace s₁) : Prompt (apartHost 4) s trace := by
  obtain ⟨c, hb', -⟩ := hat.begins max
  obtain ⟨-, rfl, -⟩ := hb'.unique hb
  have hlt' : s.executed_insts.toNat < max.toNat := hlt
  refine ⟨nopLoop.clean _, .inr ?_, fun code hc ↦ ?_, ?_⟩
  · rw [nopLoop.traceAt_insts]
    rintro ⟨inst, hi, hbranch, -⟩
    cases hi
    cases hbranch
  · rcases n with _ | n <;> cases hc
    exact le_rfl
  · rw [nopLoop.traceAt_insts]
    change _ + 2 < _
    omega

/-- The third instruction is in the second pass, and the pass is completed. -/
theorem execute_limited_nopLoop : ∃ N, ∀ fuel, N ≤ fuel → ∃ u,
    (execute ⟨true, 1, 3⟩ (apartHost 4) fuel).run nopLoop = .ok () u ∧ u.executed_insts = 4 := by
  have hcache : nopLoop.trace_cache = .new 1 := rfl
  have hstart : nopLoop.executed_insts < (3 : U64) := by decide
  have hnew : ∀ n t, Rounds ⟨true, 1, 3⟩ (apartHost 4) nopLoop n t → Constructs (apartHost 4) t := by
    intro n t hr
    have hat := nopLoop.at_of_rounds hr
    refine constructs_of_codeAt hat.bare nopLoop.isTrace_insts ?_ (by decide)
    rw [hat.pc, hat.mmu]
    exact nopLoop.codeAt
  have hprompt : ∀ n t addr trace t₁, Rounds ⟨true, 1, 3⟩ (apartHost 4) nopLoop n t →
      Begins ⟨true, 1, 3⟩ (apartHost 4) t addr trace t₁ → Prompt (apartHost 4) t trace :=
    fun n t addr trace t₁ hr hb ↦
      nopLoop.prompt (by decide) (hr.under_limit hstart) (nopLoop.at_of_rounds hr) hb
  obtain ⟨⟨N, hN⟩, hends⟩ := execute_limited hcache (apart_apartHost 4) hprompt hstart hnew
  refine ⟨N, fun fuel hle ↦ ?_⟩
  have hall := execute_rounds (.zero : Rounds ⟨true, 1, 3⟩ (apartHost 4) nopLoop 0 nopLoop) fuel
  cases hrun : (execute ⟨true, 1, 3⟩ (apartHost 4) fuel).run nopLoop with
  | error e u =>
    rw [hrun] at hall
    rcases hall with ⟨m, t, hr, he⟩ | ⟨rfl, -⟩
    · obtain ⟨v, hv, -⟩ := (nopLoop.at_of_rounds hr).next 3
      rw [hv] at he
      cases he
    · exact absurd hrun (hN fuel u hle)
  | ok _ u =>
    refine ⟨u, rfl, ?_⟩
    obtain ⟨n, t, addr, trace, t₁, hr, hb, hi, hge, hlt⟩ := hends fuel u hrun
    have hat := nopLoop.at_of_rounds hr
    obtain ⟨c, hb', -⟩ := hat.begins 3
    obtain ⟨-, rfl, -⟩ := hb'.unique hb
    rw [nopLoop.traceAt_insts] at hlt
    obtain ⟨v, hv, hnext⟩ := hat.next 3
    cases hv.symm.trans hi
    have hge' : 3 ≤ u.executed_insts.toNat := hge
    have hlt' : u.executed_insts.toNat < 5 := hlt
    have hcount : u.executed_insts.toNat = 2 * (n + 1) % 2 ^ 64 :=
      (congrArg BitVec.toNat hnext.count).trans (BitVec.toNat_ofNat ..)
    refine BitVec.eq_of_toNat_eq ?_
    change u.executed_insts.toNat = 4
    omega

/-- The first time a trace is executed its native code is made, if the threshold is zero. -/
theorem Begins.translated (hjit : opts.jit = true) (hzero : opts.jit_threshold = 0) {insts : List Inst}
    (hrefer : (TraceCache.refer host).run s = .ok addr s₁)
    (hd : s₁.trace_cache.deref addr = some { trace_ := insts }) {code : NativeCode}
    (hcode : Translator.getFunc insts s₁.mmu.isVirtualAddressing = some code) :
    ∃ c, Begins opts host s addr { trace_ := insts, exec_num_ := 1, exec_trace_ := some code }
      { s₁ with trace_cache := c } := by
  let counted (trace : Trace) : Trace := { trace with exec_num_ := trace.exec_num_ + 1 }
  let linked (trace : Trace) : Trace := { trace with exec_trace_ := some code }
  have hd₁ := LRUCache.deref_modifyAt hd counted
  have hd₂ := LRUCache.deref_modifyAt hd₁ linked
  have htry : (Trace.tryTranslate opts addr).run s₁ = .ok () { s₁ with
      trace_cache := (s₁.trace_cache.modifyAt addr counted).modifyAt addr linked } := by
    rw [Trace.tryTranslate, if_pos hjit, run_bind_of_ok (Trace.at_run hd), if_pos ⟨rfl, rfl⟩,
      Trace.update, run_bind_of_ok (EStateM.run_modify _ _), if_pos hzero,
      run_bind_of_ok (EStateM.run_get _), hcode]
    rfl
  refine ⟨_, ?_, hd₂⟩
  rw [run_bind_of_ok hrefer, run_bind_of_ok htry]
  rfl

def selfBranch : State := onePage (Bytes.write (n := 4) (fun _ ↦ 0) 0 0x00000063#32) (.new 1)

def selfBranchInst : Inst := genB ⟨.BEQ, by decide⟩ 0 0 0

theorem codeAt_selfBranch : selfBranch.mmu.CodeAt 0 [selfBranchInst] := by
  have hbeq : selfBranch.mmu.fetchInst 0 = .ok (readAs (formatOf ⟨.BEQ, by decide⟩) ⟨.BEQ, by decide⟩
      0x00000063#32) :=
    MMU.fetchInst_of_selects (by decide) (by decide) ⟨rfl, rfl, fun _ _ ↦ rfl, nofun, trivial⟩
  refine ⟨hbeq.trans (congrArg Except.ok ?_), trivial⟩
  decide

def selfBranchPass : NativeCode :=
  [.inst (countInst [selfBranchInst]), .inst (.bin .xor TranslateInst.TMP1 TranslateInst.TMP1),
    .inst (.bin .cmp TranslateInst.TMP1 (.imm 0))]

def selfBranchCode : NativeCode := .label 0 :: (selfBranchPass ++ .inst (.jcc .e 0) ::
  [.inst (.bin .add TranslateInst.PC (.imm 4)), .inst .ret])

theorem getFunc_selfBranch : Translator.getFunc [selfBranchInst] false = some selfBranchCode := rfl

theorem selfBranch_pass {layout : Layout} {clobber : Native.Clobber} {m : X86.Machine State}
    (hm : Native.Ready layout m) : ∃ m₁ f,
      (X86.block (Native.env layout clobber) selfBranchPass).run m = .ok () m₁ ∧
      Native.Ready layout m₁ ∧ m₁.flags = some f ∧ X86.Cond.e.holds f = true := by
  obtain ⟨f₁, hcount⟩ := exec_count clobber [selfBranchInst] hm
  generalize hm₁ : X86.Machine.withFlags _ f₁ = m₁ at hcount
  have hready : Native.Ready layout m₁ := by
    subst hm₁
    exact hm
  have hxor : ∃ f, (X86.exec (Native.env layout clobber) (.bin .xor TranslateInst.TMP1 TranslateInst.TMP1)).run
      m₁ = .ok () ((m₁.set .rax 0#32).withFlags f) := by
    have hzero : m₁.get .rax 32 ^^^ m₁.get .rax 32 = 0#32 := BitVec.xor_self
    rw [← hzero]
    exact ⟨_, rfl⟩
  obtain ⟨f₂, hxor⟩ := hxor
  let m₂ := (m₁.set .rax 0#32).withFlags f₂
  have hzero : m₂.get .rax 32 = 0#32 := m₁.get_set_self .rax 0#32
  have hcmp : (X86.exec (Native.env layout clobber) (.bin .cmp TranslateInst.TMP1 (.imm 0))).run m₂ =
      .ok () (m₂.withFlags (some (X86.arith .cmp (m₂.get .rax 32) 0#32).2)) := rfl
  rw [hzero] at hcmp
  refine ⟨m₂.withFlags (some (X86.arith .cmp 0#32 0#32).2), _, ?_, hready.set (g := .rax) (by decide) 0#32,
    rfl, X86.holds_e 0#32 0#32⟩
  rw [selfBranchPass, X86.block, run_bind_of_ok hcount, X86.block, run_bind_of_ok hxor, X86.block,
    run_bind_of_ok hcmp]
  rfl

theorem selfBranch_native (host : Host) (s : State) :
    ∃ u, (Trace.native host selfBranchCode).run s = .error .outOfFuel u := by
  have hstraight : X86.Straight selfBranchPass := by
    intro item hi
    rw [selfBranchPass] at hi
    simp only [List.mem_cons, List.not_mem_nil, or_false] at hi
    rcases hi with rfl | rfl | rfl <;> exact ⟨_, rfl, rfl⟩
  have hspin : ∀ fuel m, Native.Ready host.layout m → ∃ m', (X86.run (Native.env host.layout host.clobber)
      .outOfFuel selfBranchCode fuel (selfBranchPass ++ .inst (.jcc .e 0) ::
        [.inst (.bin .add TranslateInst.PC (.imm 4)), .inst .ret])).run m = .error .outOfFuel m' :=
    fun fuel m hm ↦ hstraight.spins rfl (fun _ ↦ selfBranch_pass) fuel hm
  have hrun : ∃ m', (X86.run (Native.env host.layout host.clobber) .outOfFuel selfBranchCode host.fuel
      selfBranchCode).run (Native.start host.layout (host.regs s) s) = .error .outOfFuel m' := by
    cases host.fuel with
    | zero => exact ⟨_, rfl⟩
    | succ fuel => exact hspin fuel _ (ready_start _ _)
  obtain ⟨m', hrun⟩ := hrun
  refine ⟨m'.world, ?_⟩
  change Trace.native host selfBranchCode s = _
  unfold Trace.native
  rw [hrun]

/-- However long the branch to itself runs natively, it neither returns nor comes to the limit. -/
theorem selfBranch_spins : (∀ F, Constructs (idleHost (F + 1)) selfBranch) ∧
    ∀ F N, ∃ u, (execute ⟨true, 0, 1⟩ (idleHost (F + 1)) (N + 1)).run selfBranch =
      .error .outOfFuel u := by
  have ht : IsTrace [selfBranchInst] := rfl
  have hbare : selfBranch.mmu.isVirtualAddressing = false := by decide
  have hcode : selfBranch.mmu.CodeAt selfBranch.pc [selfBranchInst] := codeAt_selfBranch
  refine ⟨fun F ↦ constructs_of_codeAt hbare ht hcode (Nat.le_add_left 1 F), fun F N ↦ ?_⟩
  have hco : TraceCache.Coherent (idleHost (F + 1)) ∅ selfBranch := .new le_rfl rfl
  obtain ⟨addr, c, hrefer, hd, -⟩ := TraceCache.refer_ok hco hbare
    (MMU.buildFrom_of_codeAt ht hcode (Nat.le_add_left 1 F))
  have hjit : (⟨true, 0, 1⟩ : Options).jit = true := rfl
  obtain ⟨c', hb⟩ := Begins.translated hjit rfl hrefer hd getFunc_selfBranch
  obtain ⟨u, hu⟩ := selfBranch_native (idleHost (F + 1)) { selfBranch with trace_cache := c' }
  exact ⟨u, Rounds.zero.execute_error ((hb.native rfl).trans hu) N⟩

end Sim

end RiscvSim
