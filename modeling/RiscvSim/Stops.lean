import RiscvSim.Rounds
import RiscvSim.TraceRefinement
import RiscvSim.MemTemplates

namespace RiscvSim

open Isa Ir State Results Simulation

namespace SingleStep

/-- The machine on instructions it is given, up to one that ends a trace. -/
def along : List Inst → Run Unit
  | [] => return
  | inst :: rest => do
    match ← inst.func_.exec inst 0 with
    | .endTrace => return
    | .nextInst =>
      modify (advance 4)
      along rest

/-- Along `insts` the instruction at index `k` throws `e`: the machine comes to it in `t`, and
`t'` is what it leaves. -/
def StopsAt (insts : List Inst) (s : State) (k : ℕ) (e : Stop) (t t' : State) : Prop :=
  ∃ inst, insts[k]? = some inst ∧ (along (insts.take k)).run s = .ok () t ∧
    (inst.func_.exec inst 0).run t = .error e t'

/-- The machine finds these instructions one after the other at its program counter. -/
def Finds : List Inst → State → Prop
  | [], _ => True
  | inst :: rest, s => s.mmu.isVirtualAddressing = false ∧ s.mmu.fetchInst s.pc = .ok inst ∧
      ∀ s', (inst.func_.exec inst 0).run s = .ok .nextInst s' → Finds rest (s'.advance 4)

variable {insts rest : List Inst} {inst : Inst} {k : ℕ} {e : Stop} {s s' t t' : State}

theorem stopsAt_zero : StopsAt (inst :: rest) s 0 e t t' ↔
    t = s ∧ (inst.func_.exec inst 0).run s = .error e t' := by
  constructor
  · rintro ⟨_, hi, ht, hx⟩
    cases hi
    cases ht
    exact ⟨rfl, hx⟩
  · rintro ⟨rfl, hx⟩
    exact ⟨inst, rfl, rfl, hx⟩

theorem along_cons (hx : (inst.func_.exec inst 0).run s = .ok .nextInst s') :
    (along (inst :: rest)).run s = (along rest).run (s'.advance 4) := by
  rw [along, run_bind_of_ok hx]
  rfl

theorem stopsAt_succ (hx : (inst.func_.exec inst 0).run s = .ok .nextInst s') :
    StopsAt (inst :: rest) s (k + 1) e t t' ↔ StopsAt rest (s'.advance 4) k e t t' := by
  simp only [StopsAt, List.getElem?_cons_succ, List.take_succ_cons, along_cons hx]

end SingleStep

open SingleStep

/-- Only the last instruction of a trace ends the chain. -/
theorem IsTrace.flow {inst : Inst} {rest : List Inst} (h : IsTrace (inst :: rest)) {offset : U32}
    {s s' : State} {flow : Flow} (hx : (inst.func_.exec inst offset).run s = .ok flow s') :
    (flow = .endTrace ∧ rest = []) ∨ (flow = .nextInst ∧ IsTrace rest) := by
  have hflow := ExecFunc.exec_flow hx
  rw [← isTerminator_eq] at hflow
  by_cases hr : rest = []
  · subst hr
    rw [if_pos (show inst.isTerminator = true from h)] at hflow
    exact .inl ⟨hflow, rfl⟩
  · obtain ⟨hi, htr⟩ := (isTrace_cons hr).mp h
    rw [if_neg (by rw [hi]; exact Bool.false_ne_true)] at hflow
    exact .inr ⟨hflow, htr⟩

theorem exec_error_pc {func : ExecFunc} {inst : Inst} {offset : U32} {s s' : State} {e : Stop}
    (hx : (func.exec inst offset).run s = .error e s') : s'.pc = s.pc := by
  cases hf : func.usesPC with
  | false => exact (ExecFunc.exec_keepsPC hf inst offset).of_error hx
  | true => cases func <;> first | cases hx | cases hf

theorem withPC_advance {s s' : State} (h : s'.pc = s.pc) (offset : U32) :
    (s'.advance offset).withPC s.pc = s' := by
  rw [← h]
  rfl

theorem advance_zero (s : State) : s.advance 0#32 = s := by
  change { s with pc := s.pc + 0#32 } = s
  rw [BitVec.add_zero]

theorem advance_advance (s : State) (k : ℕ) :
    (s.advance (BitVec.ofNat 32 (4 * k))).advance 4 = s.advance (BitVec.ofNat 32 (4 * (k + 1))) := by
  rw [offset_succ, advance, advance, advance, withPC, withPC, withPC, BitVec.add_assoc]

theorem execFrom_error_iff {insts : List Inst} (h : IsTrace insts) (k : ℕ) {s u : State} {e : Stop} :
    (execFrom k insts).run s = .error e u ↔ ∃ j t t',
      StopsAt insts (s.advance (BitVec.ofNat 32 (4 * k))) j e t t' ∧ u = t'.withPC s.pc := by
  induction insts generalizing k s with
  | nil => exact absurd rfl h.ne_nil
  | cons inst rest ih =>
    have hadv := ExecFunc.exec_advance inst.func_ inst (BitVec.ofNat 32 (4 * k)) s
    cases hx : (inst.func_.exec inst (BitVec.ofNat 32 (4 * k))).run s with
    | error e' s' =>
      rw [hx] at hadv
      have hpc := exec_error_pc hx
      rw [execFrom, run_bind_of_error hx]
      constructor
      · intro hu
        cases hu
        exact ⟨0, _, _, stopsAt_zero.mpr ⟨rfl, hadv⟩, (withPC_advance hpc _).symm⟩
      · rintro ⟨j, t, t', hj, rfl⟩
        cases j with
        | zero =>
          obtain ⟨-, hx'⟩ := stopsAt_zero.mp hj
          rw [hadv] at hx'
          cases hx'
          rw [withPC_advance hpc]
        | succ j =>
          obtain ⟨_, -, ha, -⟩ := hj
          rw [List.take_succ_cons, along, run_bind_of_error hadv] at ha
          cases ha
    | ok flow s' =>
      rw [hx] at hadv
      rw [execFrom, run_bind_of_ok hx]
      obtain ⟨rfl, rfl⟩ | ⟨rfl, htr⟩ := h.flow hx
      · constructor
        · intro hu
          cases hu
        · rintro ⟨j, t, t', hj, -⟩
          cases j with
          | zero =>
            obtain ⟨-, hx'⟩ := stopsAt_zero.mp hj
            rw [hadv] at hx'
            cases hx'
          | succ j =>
            obtain ⟨_, hi, -⟩ := hj
            cases hi
      · have hpc := ExecFunc.exec_next_pc hx
        refine run_bind_pure_eq_error.trans ((ih htr (k + 1)).trans ?_)
        rw [hpc, ← advance_advance]
        constructor
        · rintro ⟨j, t, t', hj, hu⟩
          exact ⟨j + 1, t, t', (stopsAt_succ hadv).mpr hj, hu⟩
        · rintro ⟨j, t, t', hj, hu⟩
          cases j with
          | zero =>
            obtain ⟨-, hx'⟩ := stopsAt_zero.mp hj
            rw [hadv] at hx'
            cases hx'
          | succ j => exact ⟨j, t, t', (stopsAt_succ hadv).mp hj, hu⟩

theorem SingleStep.StopsAt.tail {inst : Inst} {rest : List Inst} (h : IsTrace (inst :: rest)) {k : ℕ}
    {e : Stop} {s t t' : State} (hs : StopsAt (inst :: rest) s (k + 1) e t t') :
    ∃ s', (inst.func_.exec inst 0).run s = .ok .nextInst s' ∧ IsTrace rest ∧
      StopsAt rest (s'.advance 4) k e t t' := by
  cases hx : (inst.func_.exec inst 0).run s with
  | error e' s' =>
    obtain ⟨_, -, ha, -⟩ := hs
    rw [List.take_succ_cons, along, run_bind_of_error hx] at ha
    cases ha
  | ok flow s' =>
    obtain ⟨rfl, rfl⟩ | ⟨rfl, htr⟩ := h.flow hx
    · obtain ⟨_, hi, -⟩ := hs
      cases hi
    · exact ⟨s', rfl, htr, (stopsAt_succ hx).mp hs⟩

theorem SingleStep.StopsAt.place {insts : List Inst} (h : IsTrace insts) {k : ℕ} {e : Stop}
    {s t t' : State} (hs : StopsAt insts s k e t t') :
    t.pc = s.pc + BitVec.ofNat 32 (4 * k) ∧ t'.executed_insts = s.executed_insts := by
  induction k generalizing insts s with
  | zero =>
    cases insts with
    | nil => exact absurd rfl h.ne_nil
    | cons inst rest =>
      obtain ⟨rfl, hx⟩ := stopsAt_zero.mp hs
      exact ⟨(BitVec.add_zero _).symm, (ExecFunc.exec_keeps_insts _ _ _).of_error hx⟩
  | succ k ih =>
    cases insts with
    | nil => exact absurd rfl h.ne_nil
    | cons inst rest =>
      obtain ⟨s', hx, htr, hs'⟩ := hs.tail h
      obtain ⟨hpc, hi⟩ := ih htr hs'
      refine ⟨?_, ?_⟩
      · rw [hpc, offset_succ, BitVec.add_comm _ 4, ← BitVec.add_assoc, ← ExecFunc.exec_next_pc hx]
        rfl
      · rw [hi, ← (ExecFunc.exec_keeps_insts _ _ _).of_ok hx]
        rfl

theorem SingleStep.Finds.bare {insts : List Inst} {s : State} (hf : Finds insts s) (h : IsTrace insts) :
    s.mmu.isVirtualAddressing = false := by
  cases insts with
  | nil => exact absurd rfl h.ne_nil
  | cons inst rest => exact hf.1

theorem SingleStep.Finds.step {inst : Inst} {rest : List Inst} {s : State}
    (h : Finds (inst :: rest) s) : step.run s = finish ((inst.func_.exec inst 0).run s) := by
  rw [step_bare h.1, h.2.1]

theorem SingleStep.StopsAt.steps {insts : List Inst} (h : IsTrace insts) {k : ℕ} {e : Stop}
    {s t t' : State} (hf : Finds insts s) (hs : StopsAt insts s k e t t') :
    (iterate step k).run s = .ok () t ∧ step.run t = .error e t' := by
  induction k generalizing insts s with
  | zero =>
    cases insts with
    | nil => exact absurd rfl h.ne_nil
    | cons inst rest =>
      obtain ⟨rfl, hx⟩ := stopsAt_zero.mp hs
      refine ⟨rfl, ?_⟩
      rw [hf.step, hx]
      rfl
  | succ k ih =>
    cases insts with
    | nil => exact absurd rfl h.ne_nil
    | cons inst rest =>
      obtain ⟨s', hx, htr, hs'⟩ := hs.tail h
      have hstep : step.run s = .ok () (s'.advance 4) := by
        rw [hf.step, hx]
        rfl
      rw [iterate, run_bind_of_ok hstep]
      exact ih htr (hf.2.2 s' hx) hs'

theorem steps_of_execFrom {insts : List Inst} (h : IsTrace insts) {k : ℕ} {s s' : State}
    {visited : List ℕ} (hf : Finds insts (s.advance (BitVec.ofNat 32 (4 * k))))
    (hx : (execFrom k insts).run s = .ok visited s') :
    (iterate step insts.length).run (s.advance (BitVec.ofNat 32 (4 * k))) = .ok () s' := by
  induction insts generalizing k s visited with
  | nil => exact absurd rfl h.ne_nil
  | cons inst rest ih =>
    obtain ⟨flow, s₁, hi, hr⟩ := run_bind_eq_ok.mp hx
    have hadv := ExecFunc.exec_advance inst.func_ inst (BitVec.ofNat 32 (4 * k)) s
    rw [hi] at hadv
    have hstep := hf.step
    rw [hadv] at hstep
    obtain ⟨rfl, rfl⟩ | ⟨rfl, htr⟩ := h.flow hi
    · cases hr
      rw [List.length_singleton, iterate, run_bind_of_ok hstep]
      rfl
    · obtain ⟨l, s₂, hr', h₂⟩ := run_bind_eq_ok.mp hr
      cases h₂
      have hnext := hf.2.2 _ hadv
      rw [advance_advance] at hnext
      rw [List.length_cons, iterate, run_bind_of_ok hstep, advance_advance]
      exact ih htr hnext hr'

theorem State.SameMachine.alike {α : Type} {x : Run α} (hx : Ignores withCache x) {s t : State}
    (h : SameMachine s t) : Alike Eq SameMachine SameMachine (x.run s) (x.run t) := by
  rw [h.eq_withCache, hx]
  cases x.run s with
  | ok a s' => exact .ok rfl (sameMachine_withCache _ _)
  | error e s' => exact .error (sameMachine_withCache _ _)

theorem step_alike {s t : State} (h : SameMachine s t) :
    Alike Eq SameMachine SameMachine (step.run s) (step.run t) := by
  refine (h.alike (x := getPC) (.gets fun _ _ ↦ rfl)).bind fun pc pc' s t hpc h ↦ ?_
  subst hpc
  refine (h.alike (aside_withCache.onMmu _)).bind fun cmd cmd' s t hcmd h ↦ ?_
  subst hcmd
  refine (h.alike (.lift _)).bind fun inst inst' s t hi h ↦ ?_
  subst hi
  refine (ExecFunc.exec_alike h _ _ _).bind fun flow flow' s t hflow h ↦ ?_
  subst hflow
  cases flow with
  | endTrace => exact .ok rfl h
  | nextInst => exact .ok rfl ⟨h.regs, congrArg (· + 4) h.pc, h.mmu, h.world⟩

theorem iterate_step_alike (n : ℕ) {s t : State} (h : SameMachine s t) :
    Alike Eq SameMachine SameMachine ((iterate step n).run s) ((iterate step n).run t) :=
  iterate_alike (R := fun _ ↦ SameMachine) (fun _ _ _ ↦ step_alike) n h

namespace Sim

variable {opts : Options} {host : Host}

theorem Begins.sameMachine {Q : List Inst → Prop} {s s₁ : State} {addr : ℕ} {trace : Trace}
    (h : Sound opts.jit Q s) (hQ : Fetches host Q s) (hb : Begins opts host s addr trace s₁)
    (hv : s₁.mmu.isVirtualAddressing = false) : SameMachine s s₁ := by
  have hf := (hb.sound h hQ).2.2
  rw [hf.mode.virt] at hv
  refine ⟨hf.regs.symm, hf.pc.symm, ?_, hf.world.symm⟩
  obtain ⟨s₀, hr, ht⟩ := hb.split
  obtain ⟨h₀, trace₀, hd⟩ := TraceCache.refer_sound h hQ hr
  obtain ⟨c, trace', ht', -⟩ := Trace.tryTranslate_run opts h₀.valid hd
  rw [ht'] at ht
  cases ht
  obtain ⟨pc, s₂, hpc, h₂⟩ := run_bind_eq_ok.mp hr
  cases hpc
  obtain ⟨res, s₃, hins, h₃⟩ := run_bind_eq_ok.mp h₂
  cases h₃
  obtain ⟨v, -, -, -, ⟨-, c', rfl⟩ | ⟨-, c', c'', t, hnew, rfl⟩⟩ :=
    LRUCache.insert_ok cache h.valid (fun _ _ _ ↦ Trace.new_cache) hins
  · rfl
  · rw [new_bare (s := cache.set c' s) hv] at hnew
    cases hb : (cache.set c' s).mmu.buildFrom host.fuel (cache.set c' s).pc with
    | error e =>
      rw [hb] at hnew
      cases hnew
    | ok insts =>
      rw [hb] at hnew
      cases hnew
      rfl

theorem Begins.no_code {Q : List Inst → Prop} (hjit : opts.jit = false) {s s₁ : State} {addr : ℕ}
    {trace : Trace} (h : Sound opts.jit Q s) (hQ : Fetches host Q s)
    (hb : Begins opts host s addr trace s₁) : trace.exec_trace_ = none := by
  cases hc : trace.exec_trace_ with
  | none => rfl
  | some code =>
    have hj := ((hb.sound h hQ).2.1.code code hc).1
    rw [hjit] at hj
    cases hj

variable (hjit : opts.jit = false) {cap : ℕ} {s₀ s : State} (hcache : s₀.trace_cache = .new cap) {n : ℕ}
  (hr : Rounds opts host s₀ n s)

include hjit hcache hr

theorem Rounds.steps (hfinds : ∀ m u addr trace u₁, m < n → Rounds opts host s₀ m u →
      Begins opts host u addr trace u₁ → Finds trace.trace_ u₁) :
    ∃ N t, (iterate step N).run s₀ = .ok () t ∧ SameMachine t s := by
  induction hr with
  | zero => exact ⟨0, s₀, rfl, rfl, rfl, rfl, rfl⟩
  | @next n t u ht hrun hlim ih =>
    obtain ⟨N, t', hsteps, hsame⟩ := ih fun m u addr trace u₁ hm ↦
      hfinds m u addr trace u₁ (Nat.lt_succ_of_lt hm)
    have hsound := ht.sound hcache
    have htrace := fetches_isTrace host t
    rcases begins_or_error hsound htrace with ⟨e, u', -, he⟩ | ⟨addr, trace, t₁, hb⟩
    · rw [he] at hrun
      cases hrun
    have hfind := hfinds n t addr trace t₁ (Nat.lt_succ_self n) ht hb
    obtain ⟨-, hfit, -⟩ := hb.sound hsound htrace
    obtain ⟨visited, t₂, size, hx, -, rfl⟩ := hb.interpreted_ok (hb.no_code hjit hsound htrace) hrun
    have hbare := hfind.bare hfit.insts
    have hpc : t₁.advance (BitVec.ofNat 32 (4 * 0)) = t₁ := advance_zero t₁
    have hall := steps_of_execFrom (k := 0) hfit.insts (by rwa [hpc]) hx
    rw [hpc] at hall
    have halike := iterate_step_alike trace.trace_.length
      (hsame.trans (hb.sameMachine hsound htrace hbare))
    rw [hall] at halike
    rw [← iterate_add hsteps] at halike
    generalize hend : (iterate step (N + trace.trace_.length)).run s₀ = res at halike
    cases halike with
    | ok _ hst => exact ⟨_, _, hend, hst.regs, hst.pc, hst.mmu, hst.world⟩

variable {addr : ℕ} {trace : Trace} {s₁ : State} (hb : Begins opts host s addr trace s₁)

include hb

theorem iteration_error_iff {e : Stop} {u : State} : (iteration opts host).run s = .error e u ↔
    ∃ k t t', StopsAt trace.trace_ s₁ k e t t' ∧ u = t'.withPC s.pc := by
  have hsound := hr.sound hcache
  have htrace := fetches_isTrace host s
  obtain ⟨-, hfit, hfetched⟩ := hb.sound hsound htrace
  have hchain := execFrom_error_iff hfit.insts 0 (s := s₁) (u := u) (e := e)
  rw [show s₁.advance (BitVec.ofNat 32 (4 * 0)) = s₁ from advance_zero s₁, hfetched.pc] at hchain
  rw [hb.interpreted (hb.no_code hjit hsound htrace), ← hchain]
  cases hx : (execFrom 0 trace.trace_).run s₁ with
  | error e' u' =>
    rw [run_bind_of_error hx]
    simp only [EStateM.Result.error.injEq]
  | ok visited s₂ =>
    obtain ⟨size, hsize⟩ := TraceCache.size_run host addr s₂
    rw [run_bind_of_ok hx, run_bind_of_ok hsize]
    exact ⟨nofun, nofun⟩

/-- What is dumped after a stop has the program counter and the instruction count of the start of
the trace, and the registers, the memory and the host as the instructions before left them, one
at a time. -/
theorem stop_dumped : (∀ e u, (iteration opts host).run s = .error e u ↔
      ∃ k t t', StopsAt trace.trace_ s₁ k e t t' ∧ u = t'.withPC s.pc) ∧
    ∀ k e t t', StopsAt trace.trace_ s₁ k e t t' →
      (∀ fuel, (execute opts host (fuel + 1 + n)).run s₀ = .error e (t'.withPC s.pc)) ∧
      t.pc = s.pc + BitVec.ofNat 32 (4 * k) ∧ t'.executed_insts = s.executed_insts ∧
      ((∀ m u addr trace u₁, m ≤ n → Rounds opts host s₀ m u → Begins opts host u addr trace u₁ →
          Finds trace.trace_ u₁) →
        ∃ N t₀ t₀', (iterate step (N + k)).run s₀ = .ok () t₀ ∧ SameMachine t₀ t ∧
          step.run t₀ = .error e t₀' ∧ SameMachine t₀' t') := by
  have hsound := hr.sound hcache
  have htrace := fetches_isTrace host s
  obtain ⟨-, hfit, hfetched⟩ := hb.sound hsound htrace
  refine ⟨fun e u ↦ iteration_error_iff hjit hcache hr hb, fun k e t t' hstop ↦ ?_⟩
  have hrun := (iteration_error_iff hjit hcache hr hb).mpr ⟨k, t, t', hstop, rfl⟩
  obtain ⟨hplace, hinsts⟩ := hstop.place hfit.insts
  refine ⟨fun fuel ↦ hr.execute_error hrun fuel, ?_, hinsts.trans hfetched.insts, fun hfinds ↦ ?_⟩
  · rw [hplace, hfetched.pc]
  · have hfind := hfinds n s addr trace s₁ le_rfl hr hb
    have hbare := hfind.bare hfit.insts
    obtain ⟨N, t₀, hsteps, hsame⟩ := hr.steps hjit hcache fun m u addr trace u₁ hm ↦
      hfinds m u addr trace u₁ (Nat.le_of_lt hm)
    obtain ⟨hreach, hthrow⟩ := hstop.steps hfit.insts hfind
    have halike := iterate_step_alike k (hsame.trans (hb.sameMachine hsound htrace hbare))
    rw [hreach, ← iterate_add hsteps] at halike
    generalize hend : (iterate step (N + k)).run s₀ = res at halike
    cases halike with
    | @ok _ _ t₁ _ _ hst =>
      have hlast := step_alike hst
      rw [hthrow] at hlast
      generalize hend' : step.run t₁ = res' at hlast
      cases hlast with
      | error hst' => exact ⟨N, t₁, _, hend, hst, hend', hst'⟩

omit hjit hcache hr hb

theorem Begins.of_refer (hjit : opts.jit = false) (hrefer : (TraceCache.refer host).run s = .ok addr s₁)
    (hd : s₁.trace_cache.deref addr = some trace) : Begins opts host s addr trace s₁ := by
  refine ⟨?_, hd⟩
  rw [run_bind_of_ok hrefer, Trace.tryTranslate, if_neg (by rw [hjit]; exact Bool.false_ne_true)]
  rfl

theorem Begins.first (hjit : opts.jit = false) {cap : ℕ} (hcap : 1 ≤ cap) (hcache : s.trace_cache = .new cap)
    (hv : s.mmu.isVirtualAddressing = false) {insts : List Inst} (ht : IsTrace insts)
    (hcode : s.mmu.CodeAt s.pc insts) (hf : insts.length ≤ host.fuel) :
    ∃ addr c, Begins opts host s addr { trace_ := insts } { s with trace_cache := c } := by
  have hco : TraceCache.Coherent host ∅ s := .new hcap hcache
  obtain ⟨addr, c, hrefer, hd, -⟩ := TraceCache.refer_ok hco hv (MMU.buildFrom_of_codeAt ht hcode hf)
  exact ⟨addr, c, .of_refer hjit hrefer hd⟩

/-- `addi x1, x0, 1`, a load from the end of the address space and a jump to itself. -/
def badLoad : State :=
  let mem := Bytes.write (n := 4) (fun _ ↦ 0) 0 0x00100093#32
  let mem := Bytes.write (n := 4) mem 4 0xffc02103#32
  onePage (Bytes.write (n := 4) mem 8 0x0000006f#32) (.new 1)

theorem badLoad_stops : ∃ addr trace s₁ t t', Begins ⟨false, 100, 0⟩ (idleHost 3) badLoad addr trace s₁ ∧
    StopsAt trace.trace_ s₁ 1 (.simException "Address is out of memory") t t' ∧ t'.regs.get 1 = 1 ∧
    t.pc = 4 ∧ ∃ t₀, (iterate step 1).run badLoad = .ok () t₀ ∧ t₀.pc = 4 ∧
      step.run t₀ = .error (.simException "Address is out of memory") t₀ := by
  have hfetch (va w : U32) (c : Command) (hsize : va.toNat + 4 < 4096)
      (hw : badLoad.mmu.readMem 4 va.toNat = w) (h : Selects w c) :
      badLoad.mmu.fetchInst va = .ok (readAs (formatOf c) c w) :=
    MMU.fetchInst_of_selects hsize hw h
  have haddi := hfetch 0 0x00100093#32 ⟨.ADDI, by decide⟩
    (by decide) (by decide) ⟨rfl, rfl, fun _ _ ↦ rfl, nofun, trivial⟩
  have hlw := hfetch 4 0xffc02103#32 ⟨.LW, by decide⟩
    (by decide) (by decide) ⟨rfl, rfl, fun _ _ ↦ rfl, nofun, trivial⟩
  have hjal := hfetch 8 0x0000006f#32 ⟨.JAL, by decide⟩
    (by decide) (by decide) ⟨rfl, rfl, nofun, nofun, trivial⟩
  generalize hc : readAs _ _ _ = addi at haddi
  generalize hc' : readAs _ _ _ = lw at hlw
  generalize hc'' : readAs _ _ _ = jal at hjal
  have ht : IsTrace [addi, lw, jal] := by
    subst hc hc' hc''
    exact ⟨rfl, rfl, rfl⟩
  have hbare : badLoad.mmu.isVirtualAddressing = false := by decide
  obtain ⟨addr, c, hb⟩ : ∃ addr c, Begins ⟨false, 100, 0⟩ (idleHost 3) badLoad addr
      { trace_ := [addi, lw, jal] } { badLoad with trace_cache := c } :=
    Begins.first rfl le_rfl rfl hbare ht ⟨haddi, hlw, hjal, trivial⟩ le_rfl
  have hset : ∀ s, (addi.func_.exec addi 0).run s =
      .ok .nextInst { s with regs := s.regs.set 1 (s.regs.get 0 + 1) } := by
    rw [← hc, show readAs _ _ _ = genI ⟨.ADDI, by decide⟩ 1 0 1 by decide]
    exact fun s ↦ rfl
  have hthrow : ∀ s : State, s.mmu = badLoad.mmu → (lw.func_.exec lw 0).run s =
      .error (.simException "Address is out of memory") s := by
    intro s hs
    have hout := load_out (s := s) (n := 4) (genI ⟨.LW, by decide⟩ 2 0 0xfffffffc)
      (by rw [hs]; exact hbare) (·.signExtend 32) (by
        rw [hs, show (genI _ _ _ _).getRs1 = 0 from rfl, s.regs.get_zero]
        decide)
    rw [← hc', show readAs _ _ _ = genI ⟨.LW, by decide⟩ 2 0 0xfffffffc by decide]
    exact hout
  let s₁ : State := { badLoad with trace_cache := c }
  have hfirst : (along [addi]).run s₁ = _ := along_cons (hset s₁)
  refine ⟨addr, _, s₁, _, _, hb, ⟨lw, rfl, hfirst, hthrow _ rfl⟩, rfl, rfl, ?_⟩
  let t₀ : State := { badLoad with pc := 4, regs := badLoad.regs.set 1 1 }
  have hstep : step.run badLoad = .ok () t₀ := by
    rw [step_bare hbare, show badLoad.mmu.fetchInst badLoad.pc = _ from haddi]
    dsimp only
    rw [hset]
    rfl
  refine ⟨t₀, ?_, rfl, ?_⟩
  · rw [iterate, run_bind_of_ok hstep]
    rfl
  · rw [step_bare (s := t₀) hbare, show t₀.mmu.fetchInst t₀.pc = _ from hlw]
    dsimp only
    rw [hthrow t₀ rfl]
    rfl

/-- The load at index 1 stops the run, with one instruction done. -/
theorem stop_dumped_badLoad : ∃ t t' : State, t.pc = 4 ∧ t'.regs.get 1 = 1 ∧
    (execute ⟨false, 100, 0⟩ (idleHost 3) 1).run badLoad =
      .error (.simException "Address is out of memory") (t'.withPC 0) := by
  obtain ⟨addr, trace, s₁, t, t', hb, hstop, hreg, hpc, -⟩ := badLoad_stops
  have hcache : badLoad.trace_cache = .new 1 := rfl
  have h := (stop_dumped rfl hcache .zero hb).2 1 _ t t' hstop
  exact ⟨t, t', hpc, hreg, h.1 0⟩

/-- The machine that executes one instruction at a time stops at 4 after one instruction, and the
state that is dumped has the program counter and the instruction count at 0. -/
theorem badLoad_imprecise : ∃ t₀ u : State, (iterate step 1).run badLoad = .ok () t₀ ∧
    step.run t₀ = .error (.simException "Address is out of memory") t₀ ∧
    (execute ⟨false, 100, 0⟩ (idleHost 3) 1).run badLoad =
      .error (.simException "Address is out of memory") u ∧
    u.pc ≠ t₀.pc ∧ u.executed_insts ≠ 1 := by
  obtain ⟨addr, trace, s₁, t, t', hb, hstop, -, -, t₀, hsteps, hpc, hthrow⟩ := badLoad_stops
  have hrounds : Rounds ⟨false, 100, 0⟩ (idleHost 3) badLoad 0 badLoad := .zero
  have hcache : badLoad.trace_cache = .new 1 := rfl
  have hrun := (iteration_error_iff rfl hcache hrounds hb).mpr ⟨1, t, t', hstop, rfl⟩
  have hsound := hrounds.sound hcache
  obtain ⟨-, hfit, hfetched⟩ := hb.sound hsound (fetches_isTrace _ _)
  have hinsts : t'.executed_insts = 0 := (hstop.place hfit.insts).2.trans hfetched.insts
  refine ⟨t₀, _, hsteps, hthrow, hrounds.execute_error hrun 0, ?_, ?_⟩
  · rw [hpc]
    exact (by decide : (0 : U32) ≠ 4)
  · change t'.executed_insts ≠ 1
    rw [hinsts]
    decide

end Sim

end RiscvSim
