import RiscvSim.JumpTemplates
import RiscvSim.NativePasses
import RiscvSim.Stops

namespace RiscvSim

open Isa Ir State Results

/-- Executing the trace from `s` comes to the instruction at index `k` in a state. -/
inductive Arrives (insts : List Inst) (s : State) : ℕ → State → Prop
  | first : Arrives insts s 0 s
  | next {k : ℕ} {inst : Inst} {t u : State} : Arrives insts s k t → insts[k]? = some inst →
      (inst.func_.exec inst (BitVec.ofNat 32 (4 * k))).run t = .ok .nextInst u →
      Arrives insts s (k + 1) u

theorem Arrives.cache {insts : List Inst} {s t : State} {k : ℕ} (h : Arrives insts s k t) :
    t.trace_cache = s.trace_cache := by
  induction h with
  | first => rfl
  | @next k inst t u _ _ hx ih =>
    have hf : inst.func_ ≠ .ExecFENCE := by
      intro hf
      have hflow := ExecFunc.exec_flow hx
      rw [hf] at hflow
      cases hflow
    exact ((ExecFunc.exec_keeps_cache hf inst _).of_ok hx).trans ih

namespace Sim

variable {opts : Options} {host : Host} {s s₁ t u : State} {addr : ℕ} {trace : Trace}

/-- The entry at `addr` is there at every read of the round that begins it in `s₁`: at each
instruction that is interpreted, when its size is read, and when its native code is left. -/
structure Outlives (host : Host) (addr : ℕ) (trace : Trace) (s₁ : State) : Prop where
  insts : trace.exec_trace_ = none → ∀ k t, Arrives trace.trace_ s₁ k t →
    t.trace_cache.deref addr = some trace
  size : trace.exec_trace_ = none → ∀ visited t, (execFrom 0 trace.trace_).run s₁ = .ok visited t →
    t.trace_cache.deref addr = some trace
  code : ∀ code, trace.exec_trace_ = some code →
    (final ((Trace.native host code).run s₁)).trace_cache.deref addr = some trace

/-- The trace is interpreted and does not end in a FENCE, or is native and makes no call. -/
structure Clean (trace : Trace) : Prop where
  interpreted : trace.exec_trace_ = none → ¬ EndsInFence trace.trace_
  native : ∀ code, trace.exec_trace_ = some code → ∀ f, .inst (.call f) ∉ code

/-- `total` is the sum of the lengths of the traces executed since `s`, with each pass over a
trace counted. -/
inductive Tally (opts : Options) (host : Host) (s : State) : ℕ → State → Prop
  | zero : Tally opts host s 0 s
  | next {total p addr : ℕ} {t t₁ u : State} {trace : Trace} : Tally opts host s total t →
      Begins opts host t addr trace t₁ → (iteration opts host).run t = .ok () u → 1 ≤ p →
      (trace.exec_trace_ = none ∨ ¬ Loops trace.trace_ → p = 1) →
      Tally opts host s (total + p * trace.trace_.length) u

theorem alive_iff (htrace : IsTrace trace.trace_) (hd : s₁.trace_cache.deref addr = some trace)
    {visited : List ℕ} (hx : (execFrom 0 trace.trace_).run s₁ = .ok visited t) :
    t.trace_cache.deref addr = some trace ↔ ¬ EndsInFence trace.trace_ := by
  rcases execFrom_cache htrace hx with ⟨hf, hc⟩ | ⟨hf, hc⟩
  · rw [hc]
    exact ⟨fun _ ↦ hf, fun _ ↦ hd⟩
  · rw [hc]
    exact ⟨nofun, fun hn ↦ absurd hf hn⟩

variable {Q : List Inst → Prop} (h : Sound opts.jit Q s) (hQ : Fetches host Q s)
  (htrace : ∀ insts, Q insts → IsTrace insts) (hb : Begins opts host s addr trace s₁)

include h hQ htrace hb

theorem Begins.outlives (hf : trace.exec_trace_ = none → ¬ EndsInFence trace.trace_) :
    Outlives host addr trace s₁ where
  insts _ k t ha := by
    rw [ha.cache]
    exact hb.alive
  size hi visited t hx := by
    obtain ⟨-, hfit, -⟩ := hb.sound h hQ
    exact (alive_iff (htrace _ hfit.insts) hb.alive hx).mpr (hf hi)
  code code _ := by
    rw [Trace.native_cache host code s₁]
    exact hb.alive

theorem Begins.not_endsInFence (ho : Outlives host addr trace s₁)
    (hrun : (iteration opts host).run s = .ok () u) (hi : trace.exec_trace_ = none) :
    ¬ EndsInFence trace.trace_ := by
  obtain ⟨-, hfit, -⟩ := hb.sound h hQ
  obtain ⟨visited, t, -, hx, -⟩ := hb.interpreted_ok hi hrun
  exact (alive_iff (htrace _ hfit.insts) hb.alive hx).mp (ho.size hi visited t hx)

theorem Begins.insts (hapart : host.layout.Apart) (hclean : Clean trace)
    (hrun : (iteration opts host).run s = .ok () u) : ∃ p, 1 ≤ p ∧
      (trace.exec_trace_ = none ∨ ¬ Loops trace.trace_ → p = 1) ∧
      u.executed_insts = s.executed_insts + BitVec.ofNat 64 (p * trace.trace_.length) := by
  obtain ⟨-, hfit, hfetched⟩ := hb.sound h hQ
  have ht := htrace _ hfit.insts
  cases hc : trace.exec_trace_ with
  | none =>
    obtain ⟨visited, t, size, hx, hn, rfl⟩ := hb.interpreted_ok hc hrun
    have halive := (alive_iff ht hb.alive hx).mpr (hclean.interpreted hc)
    have hkeep := (execFrom_keeps stable_insts.data ExecFunc.exec_keeps_insts 0 trace.trace_).of_ok hx
    rw [Trace.size, run_bind_of_ok (EStateM.run_get t), halive] at hn
    cases hn
    refine ⟨1, le_rfl, fun _ ↦ rfl, ?_⟩
    rw [Nat.one_mul, ← hfetched.insts, ← hkeep]
  | some code =>
    obtain ⟨-, virt, hf⟩ := hfit.code code hc
    rw [hb.native hc] at hrun
    change Trace.native host code s₁ = _ at hrun
    unfold Trace.native at hrun
    cases hx : (X86.run (Native.env host.layout host.clobber) .outOfFuel code host.fuel code).run
        (Native.start host.layout (host.regs s₁) s₁) with
    | error e m =>
      rw [hx] at hrun
      cases hrun
    | ok _ m =>
      rw [hx] at hrun
      cases hrun
      have hm : Native.Ready host.layout (Native.start host.layout (host.regs s₁) s₁) :=
        ready_start _ _
      obtain ⟨p, hp, hone, hinsts⟩ := ends_passed hapart ht hf (hclean.native code hc) host.fuel hm
        host.fuel le_rfl m hx
      refine ⟨p, hp, fun hor ↦ hone (hor.resolve_left fun hn ↦ ?_), ?_⟩
      · cases hn
      · rw [hinsts, ← hfetched.insts]
        rfl

theorem Begins.tally (hapart : host.layout.Apart) (hclean : Clean trace)
    (hrun : (iteration opts host).run s = .ok () u) {s₀ : State} {total : ℕ}
    (hs : Tally opts host s₀ total s)
    (hsum : s.executed_insts = s₀.executed_insts + BitVec.ofNat 64 total) :
    ∃ total, Tally opts host s₀ total u ∧
      u.executed_insts = s₀.executed_insts + BitVec.ofNat 64 total := by
  obtain ⟨p, hp, hone, hinsts⟩ := hb.insts h hQ htrace hapart hclean hrun
  refine ⟨total + p * trace.trace_.length, hs.next hb hrun hp hone, ?_⟩
  rw [hinsts, hsum, BitVec.add_assoc, ← BitVec.ofNat_add]

omit h hQ htrace hb

variable {cap : ℕ} {s₀ : State} (hcache : s₀.trace_cache = .new cap) {n : ℕ}
  (hr : Rounds opts host s₀ n s)

include hcache hr

theorem Rounds.tally (hapart : host.layout.Apart) (hclean : ∀ m u addr trace u₁, m < n →
      Rounds opts host s₀ m u → Begins opts host u addr trace u₁ → Clean trace) :
    ∃ total, Tally opts host s₀ total s ∧
      s.executed_insts = s₀.executed_insts + BitVec.ofNat 64 total := by
  induction hr with
  | zero => exact ⟨0, .zero, (BitVec.add_zero _).symm⟩
  | @next n t u ht hrun hlim ih =>
    obtain ⟨total, htally, hsum⟩ := ih fun m u addr trace u₁ hm ↦
      hclean m u addr trace u₁ (Nat.lt_succ_of_lt hm)
    have hsound := ht.sound hcache
    have hQ := fetches_isTrace host t
    rcases begins_or_error hsound hQ with ⟨e, u', -, he⟩ | ⟨addr, trace, t₁, hb⟩
    · rw [he] at hrun
      cases hrun
    · exact hb.tally hsound hQ (fun _ ↦ id) hapart (hclean n t addr trace t₁ (Nat.lt_succ_self n) ht hb)
        hrun htally hsum

omit hcache hr

/-- The `State` object lies in the upper half of the address space, guest memory at its start. -/
def apartHost (fuel : ℕ) : Host := { idleHost fuel with layout := ⟨1#64 <<< 63, 0#64⟩ }

theorem apart_apartHost (fuel : ℕ) : (apartHost fuel).layout.Apart := apart_upperHalf

def selfJumpInst : Inst := genJ ⟨.JAL, by decide⟩ 0 0

/-- `addi x0, x0, 0` and the jump back to it. -/
def nopLoop : State :=
  onePage (Bytes.write (n := 4) (Bytes.write (n := 4) (fun _ ↦ 0) 0 0x00000013#32) 4 0xffdff06f#32)
    (.new 1)

namespace nopLoop

def insts : List Inst := [genI .ADDI 0 0 0, genJ .JAL 0 (-2)]

def code : NativeCode := framed insts (addPC 0)

theorem isTrace_insts : IsTrace insts := ⟨rfl, rfl⟩

theorem codeAt : nopLoop.mmu.CodeAt 0 insts := by
  have hnop : nopLoop.mmu.fetchInst 0 = .ok (readAs (formatOf .ADDI) .ADDI 0x00000013#32) :=
    MMU.fetchInst_of_selects (by decide) (by decide) ⟨rfl, rfl, fun _ _ ↦ rfl, nofun, trivial⟩
  have hjal : nopLoop.mmu.fetchInst 4 = .ok (readAs (formatOf .JAL) .JAL 0xffdff06f#32) :=
    MMU.fetchInst_of_selects (by decide) (by decide) ⟨rfl, rfl, nofun, nofun, trivial⟩
  rw [show readAs _ _ _ = genI .ADDI 0 0 0 by decide] at hnop
  rw [show readAs _ _ _ = genJ .JAL 0 (-2) by decide] at hjal
  exact ⟨hnop, hjal, trivial⟩

/-- The trace after `n` rounds: with a threshold of 1 it is translated in the second. -/
def traceAt : ℕ → Trace
  | 0 => { trace_ := insts }
  | 1 => { trace_ := insts, exec_num_ := 1 }
  | _ + 2 => { trace_ := insts, exec_num_ := 2, exec_trace_ := some code }

variable {max : U64} {n : ℕ}

theorem traceAt_insts (n : ℕ) : (traceAt n).trace_ = insts := by
  rcases n with _ | _ | n <;> rfl

theorem attempted_traceAt (n : ℕ) :
    Trace.attempted ⟨true, 1, max⟩ false (traceAt n) = traceAt (n + 1) := by
  rcases n with _ | _ | n <;> rfl

/-- The cache holds the trace, at its first address. -/
def Holds (c : LRUCache U32 Trace) (n : ℕ) : Prop :=
  c.entries_ = [⟨0, 0, traceAt n⟩] ∧ c.links_ 0 = some 0

theorem Holds.deref {c : LRUCache U32 Trace} (h : Holds c n) : c.deref 0 = some (traceAt n) := by
  rw [LRUCache.deref, h.1]
  rfl

/-- The program after `n` rounds. -/
structure At (n : ℕ) (s : State) : Prop where
  pc : s.pc = 0
  mmu : s.mmu = nopLoop.mmu
  count : s.executed_insts = BitVec.ofNat 64 (2 * n)
  sound : Sound true IsTrace s
  cached : n = 0 ∧ s.trace_cache = .new 1 ∨ Holds s.trace_cache n

theorem start : At 0 nopLoop := ⟨rfl, rfl, rfl, .new 1 rfl, .inl ⟨rfl, rfl⟩⟩

variable {s s₁ t u : State} {addr : ℕ} {trace : Trace}

theorem At.bare (h : At n s) : s.mmu.isVirtualAddressing = false := by
  rw [h.mmu]
  decide

theorem At.builds (h : At n s) (c : LRUCache U32 Trace) : (Trace.new (apartHost 4)).run (cache.set c s) =
    .ok { trace_ := insts } (cache.set c s) := by
  have hbuild := MMU.buildFrom_of_codeAt isTrace_insts codeAt (show _ ≤ 4 by decide)
  have hnew := new_bare (s := cache.set c s) h.bare (apartHost 4)
  rw [show (cache.set c s).pc = 0 from h.pc, show (cache.set c s).mmu = nopLoop.mmu from h.mmu,
    show nopLoop.mmu.buildFrom (apartHost 4).fuel 0 = _ from hbuild] at hnew
  exact hnew

theorem At.refers (h : At n s) : ∃ c,
    (TraceCache.refer (apartHost 4)).run s = .ok 0 { s with trace_cache := c } ∧ Holds c n := by
  have hpc : getPC.run s = .ok 0 s := congrArg (fun pc ↦ EStateM.Result.ok pc s) h.pc
  -- The first reference is a miss, and all others hit.
  rcases h.cached with ⟨rfl, hnew⟩ | ⟨hentries, hlink⟩
  · have hl : s.trace_cache.links_ 0 = none := by
      rw [hnew]
      rfl
    have hins := LRUCache.insert_of_no_link cache hl (Trace.new (apartHost 4))
    rw [show cache.get s = _ from hnew] at hins
    dsimp only [LRUCache.makeRoom, LRUCache.new] at hins
    rw [if_pos (by decide)] at hins
    dsimp only at hins
    rw [h.builds] at hins
    refine ⟨LRUCache.emplaceFront { LRUCache.new 1 with cur_size_ := 1 } 0 { trace_ := insts }, ?_,
      rfl, rfl⟩
    rw [TraceCache.refer, run_bind_of_ok hpc, run_bind_of_ok hins]
    rfl
  · have hlink' : Function.update s.trace_cache.links_ 0 (some 0) 0 = some 0 := Function.update_self ..
    have hins := LRUCache.insert_of_link cache (s := s) hlink (Trace.new (apartHost 4))
    rw [LRUCache.spliceFront, show (cache.get s).entries_ = _ from hentries] at hins
    refine ⟨{ s.trace_cache with
      entries_ := [⟨0, 0, traceAt n⟩]
      links_ := Function.update s.trace_cache.links_ 0 (some 0) }, ?_, rfl, hlink'⟩
    rw [TraceCache.refer, run_bind_of_ok hpc, run_bind_of_ok hins]
    rfl

variable (max) in
theorem At.begins (h : At n s) : ∃ c, Begins ⟨true, 1, max⟩ (apartHost 4) s 0 (traceAt (n + 1))
    { s with trace_cache := c } ∧ Holds c (n + 1) := by
  obtain ⟨c, hrefer, hc⟩ := h.refers
  obtain ⟨hsound, -⟩ := TraceCache.refer_sound h.sound (fetches_isTrace (apartHost 4) s) hrefer
  have htry := Trace.tryTranslate_eq ⟨true, 1, max⟩ hsound.valid hc.deref
  have hnext : Holds (c.modifyAt 0 (Trace.attempted ⟨true, 1, max⟩ false)) (n + 1) := by
    refine ⟨?_, hc.2⟩
    rw [LRUCache.modifyAt, hc.1, ← attempted_traceAt]
    rfl
  rw [show MMU.isVirtualAddressing _ = false from h.bare] at htry
  refine ⟨_, ⟨?_, hnext.deref⟩, hnext⟩
  rw [run_bind_of_ok hrefer, run_bind_of_ok htry]
  rfl

theorem block_code {layout : Layout} (clobber : Native.Clobber) {m : X86.Machine State}
    (hm : Native.Ready layout m) : ∃ f, (X86.block (Native.env layout clobber)
      (.inst (countInst insts) :: addPC 0)).run m = .ok () ({ m with world := { m.world with
        executed_insts := m.world.executed_insts + 2, pc := m.world.pc + 0 } }.withFlags f) := by
  obtain ⟨f, hcount⟩ := exec_count clobber insts hm
  generalize hm₁ : X86.Machine.withFlags _ f = m₁ at hcount
  have hm₁' : Native.Ready layout m₁ := by
    subst hm₁
    exact hm
  obtain ⟨f', hadd⟩ := Native.exec_add_pc hm₁' clobber 0
  refine ⟨f', ?_⟩
  rw [X86.block, run_bind_of_ok hcount, addPC, X86.block, run_bind_of_ok hadd]
  subst hm₁
  rfl

theorem native_code (s : State) : (Trace.native (apartHost 4) code).run s =
    .ok () { s with executed_insts := s.executed_insts + 2, pc := s.pc + 0 } := by
  obtain ⟨f, hblock⟩ := block_code (apartHost 4).clobber (ready_start ((apartHost 4).regs s) s)
  have hrun : (X86.run (Native.env (apartHost 4).layout (apartHost 4).clobber) .outOfFuel code
      (apartHost 4).fuel code).run _ = _ := X86.run_block hblock 1
  change Trace.native (apartHost 4) code s = _
  unfold Trace.native
  rw [hrun]
  rfl

variable (max) in
theorem At.next (h : At n s) :
    ∃ u, (iteration ⟨true, 1, max⟩ (apartHost 4)).run s = .ok () u ∧ At (n + 1) u := by
  obtain ⟨c, hb, hc⟩ := h.begins max
  let u : State := { s with trace_cache := c, executed_insts := s.executed_insts + 2, pc := s.pc + 0 }
  have hrun : (iteration ⟨true, 1, max⟩ (apartHost 4)).run s = .ok () u := by
    rcases n with _ | n
    · let t : State := { s with trace_cache := c, pc := s.pc + 4 + -2 * 2 }
      have hx : (execFrom 0 insts).run { s with trace_cache := c } = .ok [0, 1] t := rfl
      have hsize : (Trace.size (apartHost 4) 0).run t = .ok 2 t := by
        rw [Trace.size, run_bind_of_ok (EStateM.run_get t), hc.deref]
        rfl
      have hback : s.pc + 4 + -2 * 2 = s.pc + 0 := BitVec.add_assoc s.pc 4 _
      rw [hb.interpreted rfl, traceAt_insts, run_bind_of_ok hx, run_bind_of_ok hsize]
      dsimp only [u]
      rw [← hback]
      rfl
    · rw [hb.native rfl, native_code]
  refine ⟨u, hrun, ?_, h.mmu, ?_, ?_, .inr hc⟩
  · change s.pc + 0 = 0
    rw [h.pc]
    rfl
  · change s.executed_insts + 2 = _
    rw [h.count, Nat.mul_succ, BitVec.ofNat_add]
    rfl
  · exact iteration_sound h.sound (fetches_isTrace (apartHost 4) s) (fun _ ↦ id) hrun

theorem at_of_rounds (hr : Rounds ⟨true, 1, max⟩ (apartHost 4) nopLoop n s) : At n s := by
  induction hr with
  | zero => exact start
  | next _ hrun _ ih =>
    obtain ⟨u, hu, hat⟩ := ih.next max
    cases hu.symm.trans hrun
    exact hat

theorem rounds (n : ℕ) : ∃ s, Rounds ⟨true, 1, 0⟩ (apartHost 4) nopLoop n s := by
  induction n with
  | zero => exact ⟨_, .zero⟩
  | succ n ih =>
    obtain ⟨s, hr⟩ := ih
    obtain ⟨u, hrun, -⟩ := (at_of_rounds hr).next 0
    exact ⟨u, hr.next hrun fun hlim ↦ hlim.1 rfl⟩

theorem clean (n : ℕ) : Clean (traceAt n) where
  interpreted _ := by
    rw [traceAt_insts]
    rintro ⟨inst, hi, hf⟩
    cases hi
    cases hf
  native code' hc f hmem := by
    rcases n with _ | _ | n <;> cases hc
    simp [code, framed, countInst, addPC] at hmem

theorem At.clean (h : At n s) (hb : Begins ⟨true, 1, max⟩ (apartHost 4) s addr trace s₁) :
    Clean trace := by
  obtain ⟨c, hb', -⟩ := h.begins max
  obtain ⟨-, rfl, -⟩ := hb'.unique hb
  exact nopLoop.clean _

end nopLoop

/-- A FENCE, and a jump back to it. -/
def fenceLoop : State :=
  onePage (Bytes.write (n := 4) (Bytes.write (n := 4) (fun _ ↦ 0) 0 0x0ff0000f#32) 4 0xffdff06f#32)
    (.new 1)

end Sim

end RiscvSim
