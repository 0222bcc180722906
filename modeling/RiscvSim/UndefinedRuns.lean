import RiscvSim.ExactCaches
import RiscvSim.InstLimit
import RiscvSim.ControlTransfer

namespace RiscvSim

open Isa Ir State Results Decoder

/-- A trace whose instructions come from words that `decode` accepts. -/
structure IsDecoded (insts : List Inst) : Prop where
  trace : IsTrace insts
  words : ∀ inst ∈ insts, ∃ w, decoder_.decode w = .ok inst

theorem Trace.fetchFrom_isDecoded {fuel : ℕ} {va : U32} {s s' : State} {insts : List Inst}
    (h : (fetchFrom fuel va).run s = .ok insts s') : IsDecoded insts := by
  refine ⟨(fetchFrom_isTrace h).1, ?_⟩
  induction fuel generalizing va s insts with
  | zero => cases h
  | succ fuel ih =>
    obtain ⟨cmd, s₁, -, h₁⟩ := run_bind_eq_ok.mp h
    obtain ⟨inst, s₂, hd, h₂⟩ := run_bind_eq_ok.mp h₁
    have hcmd : decoder_.decode cmd = .ok inst := (run_lift_eq_ok.mp hd).1
    cases ht : inst.isTerminator with
    | true =>
      rw [if_pos ht] at h₂
      cases h₂
      exact List.forall_mem_singleton.mpr ⟨cmd, hcmd⟩
    | false =>
      rw [if_neg (by rw [ht]; exact Bool.false_ne_true)] at h₂
      obtain ⟨rest, s₃, h₃, hr⟩ := run_bind_eq_ok.mp h₂
      cases hr
      exact List.forall_mem_cons.mpr ⟨⟨cmd, hcmd⟩, ih h₃⟩

theorem Sim.fetches_isDecoded (host : Host) (s : State) : Fetches host IsDecoded s :=
  fun _ _ _ h ↦ Trace.fetchFrom_isDecoded h

theorem Ir.Inst.isImmShift_of_func {inst : Inst}
    (h : inst.func_ = .ExecSLLI ∨ inst.func_ = .ExecSRLI ∨ inst.func_ = .ExecSRAI) : IsImmShift inst := by
  obtain ⟨imm, rs1, rs2, rd, c, hc⟩ := inst
  cases c with
  | SLLI => exact .inl rfl
  | SRLI => exact .inr (.inl rfl)
  | SRAI => exact .inr (.inr rfl)
  | UNDEFINED => exact absurd rfl hc
  | _ => rcases h with h | h | h <;> cases h

section

variable {w : U32} {inst : Inst} (hd : decoder_.decode w = .ok inst)

include hd

theorem shiftsInRange_of_decode (hc : inst.getCmd ≠ .SRAI) : inst.ShiftsInRange := by
  intro hfunc
  have hshamt := (decodes_of_decode hd).shamt
  rcases inst.isImmShift_of_func hfunc with hi | hi | hi
  · exact hshamt (.inl hi)
  · exact hshamt (.inr hi)
  · exact absurd hi hc

theorem srai_error (hc : inst.getCmd = .SRAI) (offset : U32) (s : State) :
    (inst.func_.exec inst offset).run s = .error .undefinedBehaviour s := by
  obtain ⟨hs, hi⟩ := (decode_ok_iff w inst).mp hd
  have hcmd : inst.cmd_ = .SRAI := Subtype.ext hc
  have h7 : w.extractLsb' 25 7 = 0x20 := by
    rw [hcmd] at hs
    exact hs.special
  have himm : inst.getImm = (fieldI w).signExtend 32 := by
    rw [hi, hcmd]
    exact Rv32i.readAs_immI w rfl rfl
  have hge : ¬ inst.getImm.toNat < 32 := by
    rw [himm, toNat_signExtend_fieldI (by rw [h7]; rfl), h7]
    change ¬ 0x20 * 32 + _ < 32
    omega
  have hshift : ∀ a, ExecInst.shiftRightArith a inst.getImm = .error .undefinedBehaviour := by
    intro a
    have hr : ∀ a, ExecInst.shiftRight a inst.getImm = .error .undefinedBehaviour := fun a ↦ if_neg hge
    rw [ExecInst.shiftRightArith, hr, hr]
    split <;> rfl
  have hfunc : inst.func_ = .ExecSRAI := by
    rw [Inst.func_, hcmd]
    rfl
  rw [hfunc]
  change (ExecInst.immType inst ExecInst.shiftRightArith).run s = _
  have hrs1 : (ExecInst.URS1 inst).run s = .ok (s.regs.get inst.getRs1) s := rfl
  rw [ExecInst.immType, run_bind_of_ok hrs1, hshift]
  rfl

end

theorem Arrives.execFrom_error {insts : List Inst} {s t u : State} {k : ℕ} {e : Stop}
    (h : Arrives insts s k t) (hrun : (execFrom k (insts.drop k)).run t = .error e u) :
    (execFrom 0 insts).run s = .error e u := by
  induction h with
  | first => exact hrun
  | @next k inst t t' _ hi hx ih =>
    refine ih ?_
    obtain ⟨hk, rfl⟩ := List.getElem?_eq_some_iff.mp hi
    rw [List.drop_eq_getElem_cons hk, execFrom, run_bind_of_ok hx]
    dsimp only
    rw [run_bind_of_error hrun]

theorem Arrives.guards {insts : List Inst} {s t : State} {k : ℕ} {I : State → Prop} {E : Stop → Prop}
    (h : Arrives insts s k t)
    (hx : ∀ inst ∈ insts, ∀ offset, Guards I E (inst.func_.exec inst offset)) (hs : I s) : I t := by
  induction h with
  | first => exact hs
  | next _ hi hrun ih => exact (hx _ (List.mem_of_getElem? hi) _).ok _ _ _ ih hrun

theorem execFrom_error_arrives {insts rest : List Inst} (ht : IsTrace rest) {s t u : State} {k : ℕ} {e : Stop}
    (hrest : insts.drop k = rest) (h : Arrives insts s k t) (hrun : (execFrom k rest).run t = .error e u) :
    ∃ j inst v, Arrives insts s j v ∧ insts[j]? = some inst ∧
      (inst.func_.exec inst (BitVec.ofNat 32 (4 * j))).run v = .error e u := by
  induction rest generalizing k t with
  | nil => exact absurd rfl ht.ne_nil
  | cons inst rest ih =>
    have hi : insts[k]? = some inst := by
      have hhead := congrArg List.head? hrest
      rwa [List.head?_drop] at hhead
    rcases run_bind_eq_error.mp hrun with he | ⟨flow, t', hx, h₁⟩
    · exact ⟨k, inst, t, h, hi, he⟩
    · rcases ht.flow hx with ⟨rfl, -⟩ | ⟨rfl, htr⟩
      · cases h₁
      · rcases run_bind_eq_error.mp h₁ with he | ⟨more, t'', -, h₂⟩
        · refine ih htr ?_ (h.next hi hx) he
          rw [← List.tail_drop, hrest, List.tail_cons]
        · cases h₂

theorem Stop.IsException.ne_undefined {e : Stop} (h : e.IsException) : e ≠ .undefinedBehaviour := by
  obtain ⟨what, rfl⟩ := h
  intro he
  cases he

namespace Sim

variable {opts : Options} {host : Host} {s s₁ t : State} {addr : ℕ} {trace : Trace} {cap icap dcap : ℕ}

def ComesTo (cmd : Cmd) (trace : Trace) (s₁ : State) : Prop :=
  ∃ k inst t, Arrives trace.trace_ s₁ k t ∧ trace.trace_[k]? = some inst ∧ inst.getCmd = cmd

/-- A round that interprets its trace reads the size of a trace that has been destroyed meanwhile. -/
def ReadsFreed (opts : Options) (host : Host) (s : State) : Prop :=
  ∃ n t addr trace t₁ visited u, Rounds opts host s n t ∧ Begins opts host t addr trace t₁ ∧
    trace.exec_trace_ = none ∧ (execFrom 0 trace.trace_).run t₁ = .ok visited u ∧
      u.trace_cache.deref addr = none

def Undefined (opts : Options) (host : Host) (s : State) : Prop :=
  (∃ fuel u, (execute opts host fuel).run s = .error .undefinedBehaviour u) ∨ ReadsFreed opts host s

theorem func_eq_fence {inst : Inst} : inst.func_ = .ExecFENCE ↔ inst.getCmd = .FENCE := by
  obtain ⟨imm, rs1, rs2, rd, c, hc⟩ := inst
  cases c with
  | FENCE => exact iff_of_true rfl rfl
  | UNDEFINED => exact absurd rfl hc
  | _ => exact iff_of_false nofun nofun

theorem frees_iff (htrace : IsTrace trace.trace_) (halive : s₁.trace_cache.deref addr = some trace) :
    (∃ visited u, (execFrom 0 trace.trace_).run s₁ = .ok visited u ∧ u.trace_cache.deref addr = none) ↔
      ComesTo .FENCE trace s₁ := by
  constructor
  · rintro ⟨visited, u, hx, hnone⟩
    have hfence : EndsInFence trace.trace_ := by
      by_contra hf
      rw [(alive_iff htrace halive hx).mpr hf] at hnone
      cases hnone
    obtain ⟨body, last, hsplit, -, hbody⟩ := htrace.split
    obtain ⟨inst, hinst, hfunc⟩ := hfence
    rw [ComesTo]
    rw [hsplit] at hx hinst ⊢
    rw [List.getLast?_concat] at hinst
    cases hinst
    obtain ⟨t, ht⟩ | ⟨i, -, t, inst, e, t', ht, hi, he⟩ :
        (∃ t, Arrives (body ++ [last]) s₁ body.length t) ∨ _ := arrives_or_throws_body hbody s₁
    · exact ⟨body.length, last, t, ht, getElem_last, func_eq_fence.mp hfunc⟩
    · exact absurd ⟨visited, u, hx, rfl⟩ (not_execution ht hi he)
  · rintro ⟨k, inst, t, ht, hi, hc⟩
    have hfunc := func_eq_fence.mpr hc
    obtain ⟨hlt, hget⟩ := List.getElem?_eq_some_iff.mp hi
    obtain ⟨u, hx, hcache⟩ : ∃ u, (inst.func_.exec inst (BitVec.ofNat 32 (4 * k))).run t =
        .ok .endTrace u ∧ u.trace_cache = t.trace_cache.clear := by
      rw [hfunc]
      exact ⟨_, rfl, rfl⟩
    have hlast : (execFrom k (trace.trace_.drop k)).run t = .ok [k] u := by
      rw [List.drop_eq_getElem_cons hlt, hget, execFrom, run_bind_of_ok hx]
      rfl
    obtain ⟨visited, hrun⟩ := (ht.execFrom_iff u).mpr ⟨[k], hlast⟩
    refine ⟨visited, u, hrun, ?_⟩
    rw [hcache]
    rfl

section

variable (hcap : 1 ≤ cap) (hi : 1 ≤ icap) (hd : 1 ≤ dcap) (hjit : opts.jit = false)
  (h : Sound opts.jit IsDecoded s) (ht : s.Tight cap icap dcap)

include hcap hi hd hjit h ht

theorem Begins.undefined_iff (hb : Begins opts host s addr trace s₁) :
    (∃ u, (iteration opts host).run s = .error .undefinedBehaviour u) ↔ ComesTo .SRAI trace s₁ := by
  obtain ⟨-, hfit, -⟩ := hb.sound h (fetches_isDecoded host s)
  have ht₁ := hb.tight hcap hi hd h (fetches_isDecoded host s) ht
  rw [hb.interpreted (hb.no_code hjit h (fetches_isDecoded host s))]
  constructor
  · rintro ⟨u, hrun⟩
    rcases run_bind_eq_error.mp hrun with hx | ⟨visited, t, -, h₁⟩
    · obtain ⟨k, inst, v, harr, hk, he⟩ := execFrom_error_arrives hfit.insts.trace rfl .first hx
      refine ⟨k, inst, v, harr, hk, ?_⟩
      obtain ⟨w, hw⟩ := hfit.insts.words inst (List.mem_of_getElem? hk)
      have hany : Guarded (State.Tight cap icap dcap) fun _ ↦ True :=
        State.tight_guarded hi hd fun _ _ ↦ trivial
      have hv := harr.guards (fun inst _ offset ↦ hany.exec offset (.inr trivial)) ht₁
      by_contra hc
      have hdefined : Guarded (State.Tight cap icap dcap) fun e ↦ e ≠ .undefinedBehaviour :=
        State.tight_guarded hi hd fun e ↦ Stop.IsException.ne_undefined
      exact (hdefined.exec _ (.inl (shiftsInRange_of_decode hw hc))).error _ _ _ hv he rfl
    · obtain ⟨size, hsize⟩ := TraceCache.size_run host addr t
      rw [run_bind_of_ok hsize] at h₁
      cases h₁
  · rintro ⟨k, inst, t, harr, hk, hc⟩
    obtain ⟨w, hw⟩ := hfit.insts.words inst (List.mem_of_getElem? hk)
    refine ⟨t, run_bind_of_error (harr.execFrom_error ?_)⟩
    obtain ⟨hlt, rfl⟩ := List.getElem?_eq_some_iff.mp hk
    rw [List.drop_eq_getElem_cons hlt, execFrom, run_bind_of_error (srai_error hw hc _ t)]

omit h ht

/-- With the translator off a run is undefined where it comes to an SRAI, whose shift count is out of
range, or to a FENCE, which destroys the trace that is running, and nowhere else. -/
theorem execute_undefined_iff (htraces : s.trace_cache = .new cap) (hinst : s.mmu.instTLB_ = .new icap)
    (hdata : s.mmu.dataTLB_ = .new dcap) : Undefined opts host s ↔
      ∃ n t addr trace t₁, Rounds opts host s n t ∧ Begins opts host t addr trace t₁ ∧
        (ComesTo .SRAI trace t₁ ∨ ComesTo .FENCE trace t₁) := by
  have htight : s.Tight cap icap dcap := .new htraces hinst hdata
  have hall : ∀ {n t}, Rounds opts host s n t → Sound opts.jit IsDecoded t ∧ t.Tight cap icap dcap :=
    fun {n t} hr ↦ ⟨hr.invariant (.new cap htraces) fun u _ hu ↦
      iteration_sound hu (fetches_isDecoded host u) fun _ ht ↦ ht.trace,
      hr.tight hcap hi hd (.new cap htraces) htight⟩
  have hfrees : ∀ {n t addr trace t₁}, Rounds opts host s n t → Begins opts host t addr trace t₁ → _ :=
    fun {n t addr trace t₁} hr hb ↦
      frees_iff (hb.sound (hall hr).1 (fetches_isDecoded host t)).2.1.insts.trace hb.alive
  constructor
  · rintro (⟨fuel, u, hrun⟩ | ⟨n, t, addr, trace, t₁, visited, u, hr, hb, -, hx, hnone⟩)
    · have hrounds := execute_rounds (.zero : Rounds opts host s 0 s) fuel
      rw [hrun] at hrounds
      rcases hrounds with ⟨n, t, hr, hlast⟩ | ⟨hout, -⟩
      · obtain ⟨hs, ht⟩ := hall hr
        rcases begins_or_error hs (fetches_isDecoded host t) with ⟨e, v, hrefer, he⟩ | ⟨addr, trace, t₁, hb⟩
        · rw [he] at hlast
          cases hlast
          have hguards := TraceCache.refer_guards hi hd (fun e ↦ Stop.IsException.ne_undefined) hcap
            (nofun : Stop.outOfFuel ≠ .undefinedBehaviour) host
          exact absurd rfl (hguards.error _ _ _ ht hrefer)
        · have hsrai := (hb.undefined_iff hcap hi hd hjit hs ht).mp ⟨u, hlast⟩
          exact ⟨n, t, addr, trace, t₁, hr, hb, .inl hsrai⟩
      · cases hout
    · exact ⟨n, t, addr, trace, t₁, hr, hb, .inr ((hfrees hr hb).mp ⟨visited, u, hx, hnone⟩)⟩
  · rintro ⟨n, t, addr, trace, t₁, hr, hb, hsrai | hfence⟩
    · obtain ⟨hs, ht⟩ := hall hr
      obtain ⟨u, hlast⟩ := (hb.undefined_iff hcap hi hd hjit hs ht).mpr hsrai
      exact .inl ⟨0 + 1 + n, u, hr.execute_error hlast 0⟩
    · obtain ⟨visited, u, hx, hnone⟩ := (hfrees hr hb).mpr hfence
      have hcode := hb.no_code hjit (hall hr).1 (fetches_isDecoded host t)
      exact .inr ⟨n, t, addr, trace, t₁, visited, u, hr, hb, hcode, hx, hnone⟩

end

/-- `srai x1, x2, 1` and a jump to itself. -/
def shifting : State :=
  onePage (Bytes.write (n := 4) (Bytes.write (n := 4) (fun _ ↦ 0) 0 0x40115093#32) 4 0x0000006f#32) (.new 1)

def shiftingTrace : List Inst := [⟨0x401, 2, 0, 1, .SRAI⟩, genJ .JAL 0 0]

theorem shifting_builds : shifting.mmu.buildFrom 2 0 = .ok shiftingTrace := by
  have hfetches : ∀ (va w : U32) (c : Command), va.toNat + 4 < 4096 →
      shifting.mmu.readMem 4 va.toNat = w → Selects w c →
      shifting.mmu.fetchInst va = .ok (readAs (formatOf c) c w) :=
    fun va w c hsize hw h ↦ MMU.fetchInst_of_selects hsize hw h
  have hsrai := hfetches 0 0x40115093#32 .SRAI (by decide) (by decide) selects_srai
  have hjal := hfetches 4 0x0000006f#32 .JAL (by decide) (by decide)
    ⟨rfl, rfl, nofun, nofun, trivial⟩
  rw [show readAs _ _ _ = ⟨0x401, 2, 0, 1, .SRAI⟩ by decide] at hsrai
  rw [show readAs _ _ _ = genJ .JAL 0 0 by decide] at hjal
  exact MMU.buildFrom_of_codeAt ⟨rfl, rfl⟩ ⟨hsrai, hjal, trivial⟩ le_rfl

theorem execute_undefined_shifting : Undefined ⟨false, 0, 0⟩ (idleHost 2) shifting := by
  let opts : Options := ⟨false, 0, 0⟩
  have hcap : shifting.trace_cache = .new 1 := rfl
  have hcurrent : Current (idleHost 2) opts.jit ∅ shifting := .new le_rfl hcap
  rcases hcurrent.begins opts rfl with ⟨e, c, hb, -⟩ | ⟨addr, c, trace, hb, hbegins, -⟩
  · cases hb.symm.trans shifting_builds
  · have hinsts : trace.trace_ = shiftingTrace := Except.ok.inj (hb.symm.trans shifting_builds)
    have hjit : opts.jit = false := rfl
    refine (execute_undefined_iff le_rfl le_rfl le_rfl hjit hcap rfl rfl).mpr ?_
    refine ⟨0, shifting, addr, trace, _, .zero, hbegins, .inl ?_⟩
    refine ⟨0, ⟨0x401, 2, 0, 1, .SRAI⟩, _, .first, ?_, rfl⟩
    rw [hinsts]
    rfl

end Sim

end RiscvSim
