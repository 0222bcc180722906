import RiscvSim.WholeTraces
import RiscvSim.Stops
import RiscvSim.MoreFuel
import RiscvSim.Library.Stuttering

namespace RiscvSim

open Isa Ir State Results Simulation X86 Native Translator

section

variable {host : Host} {insts : List Inst} {s s' t t' : State}

/-- Without a cache, an iteration is an execution of the trace that memory holds. -/
theorem uncached_run (hv : t.mmu.isVirtualAddressing = false)
    (hb : t.mmu.buildFrom host.fuel t.pc = .ok insts) : (Uncached.iteration host).run t = (do
      let _ ← execFrom 0 insts
      modify fun s ↦
        { s with executed_insts := s.executed_insts + BitVec.ofNat 64 insts.length } : Run Unit).run t := by
  have hnew := new_bare hv host
  rw [hb] at hnew
  rw [Uncached.iteration, run_bind_of_ok hnew]

theorem uncached_ok_iff (hv : t.mmu.isVirtualAddressing = false)
    (hb : t.mmu.buildFrom host.fuel t.pc = .ok insts) :
    (Uncached.iteration host).run t = .ok () t' ↔ Execution insts t t' := by
  rw [uncached_run hv hb]
  constructor
  · intro h
    obtain ⟨visited, u, hx, hu⟩ := run_bind_eq_ok.mp h
    cases hu
    exact ⟨visited, u, hx, rfl⟩
  · rintro ⟨visited, u, hx, rfl⟩
    rw [run_bind_of_ok hx]
    rfl

theorem uncached_error (hv : t.mmu.isVirtualAddressing = false) {e : Stop}
    (hb : t.mmu.buildFrom host.fuel t.pc = .error e) : (Uncached.iteration host).run t = .error e t := by
  have hnew := new_bare hv host
  rw [hb] at hnew
  rw [Uncached.iteration, run_bind_of_error hnew]

theorem Execution.count (h : Execution insts s s') :
    s'.executed_insts = s.executed_insts + BitVec.ofNat 64 insts.length := by
  obtain ⟨visited, u, hx, rfl⟩ := h
  have hkeeps : u.executed_insts = s.executed_insts :=
    (execFrom_keeps stable_insts.data ExecFunc.exec_keeps_insts 0 insts).of_ok hx
  rw [← hkeeps]

theorem Execution.alike (h : Execution insts s s') (hst : SameMachine s t) : ∃ t', Execution insts t t' ∧
    SameMachine s' t' ∧ (s.executed_insts = t.executed_insts → s'.executed_insts = t'.executed_insts) := by
  obtain ⟨visited, u, hx, hu⟩ := h
  have halike := execFrom_alike hst 0 insts
  rw [hx] at halike
  generalize hr : (execFrom 0 insts).run t = r at halike
  cases halike with
  | @ok _ _ _ v _ hsame =>
    have hcount : Execution insts t
        { v with executed_insts := v.executed_insts + BitVec.ofNat 64 insts.length } :=
      ⟨_, _, hr, rfl⟩
    refine ⟨_, hcount, ?_, fun heq ↦ ?_⟩
    · subst hu
      exact ⟨hsame.regs, hsame.pc, hsame.mmu, hsame.world⟩
    · rw [Execution.count ⟨visited, u, hx, hu⟩, heq, hcount.count]

theorem Arrives.alike {k : ℕ} (h : Arrives insts s k s') (hst : SameMachine s t) :
    ∃ t', Arrives insts t k t' ∧ SameMachine s' t' := by
  induction h with
  | first => exact ⟨t, .first, hst⟩
  | @next k inst _ _ _ hi hx ih =>
    obtain ⟨u, hu, hsame⟩ := ih
    have halike := ExecFunc.exec_alike hsame inst.func_ inst (BitVec.ofNat 32 (4 * k))
    rw [hx] at halike
    generalize hr : (inst.func_.exec inst (BitVec.ofNat 32 (4 * k))).run u = r at halike
    cases halike with
    | ok hflow h =>
      subst hflow
      exact ⟨_, hu.next hi hr, h⟩

theorem Arrives.pc_eq {k : ℕ} (h : Arrives insts s k t) : t.pc = s.pc := by
  induction h with
  | first => rfl
  | next _ _ hx ih => exact (ExecFunc.exec_next_pc hx).trans ih

theorem Execution.pc_again (hx : Execution insts s s') (hagain : Again insts s') (ht : IsTrace insts)
    (hsup : ∀ inst ∈ insts, inst.isTranslationSupported = true) : s'.pc = s.pc := by
  obtain ⟨body, last, rfl, hlast, hbody⟩ := ht.split
  have hcmd := transfer_of_terminator (hsup last (List.mem_append_right _ (List.mem_singleton_self last))) hlast
  obtain ⟨hl, htaken⟩ := again_append.mp hagain
  obtain ⟨hbranch, hz⟩ := (loops_append hcmd).mp hl
  rcases arrives_or_throws_body hbody s with ⟨t, h⟩ | ⟨i, _, t, inst, e, t', h, hi, hthrow⟩
  · have hend := (execution_iff h (exec_branch hbranch _ t)).mp hx
    have hsame : last.takenIn s' = last.takenIn t := by
      rw [hend]
      rfl
    rw [hsame] at htaken
    rw [hend, branched_back hz htaken]
    exact h.pc_eq
  · exact absurd hx (not_execution h hi hthrow)

end

/-- Wherever the machine without a cache begins a trace that has a translation, the templates of the
instructions that it reaches are safe. -/
def SafeTraces (host : Host) (t : State) : Prop :=
  ∀ k u insts, (iterate (Uncached.iteration host) k).run t = .ok () u →
    u.mmu.buildFrom host.fuel u.pc = .ok insts →
    (∀ inst ∈ insts, inst.isTranslationSupported = true) →
    ∀ i inst v, insts[i]? = some inst → Arrives insts u i v →
      (prepared Inst.translate insts false i inst).Safe inst v

/-- No run of the machine without a cache disturbs the words of its traces; and if they are translated all
of them are safe. -/
structure Tame (host : Host) (jit : Bool) (words : Set U32) (t : State) : Prop where
  quiet : ∀ n, Quiet host n words t
  safe : jit = true → SafeTraces host t

def Unfenced (host : Host) (t : State) : Prop :=
  ∀ k u insts, (iterate (Uncached.iteration host) k).run t = .ok () u →
    u.mmu.buildFrom host.fuel u.pc = .ok insts → ¬ EndsInFence insts

theorem Unfenced.next {host : Host} {t t' : State} (h : Unfenced host t) {n : ℕ}
    (hrun : (iterate (Uncached.iteration host) n).run t = .ok () t') : Unfenced host t' :=
  fun k u insts hu ↦ h (n + k) u insts (iterate_add_eq_ok.mpr ⟨t', hrun, hu⟩)

namespace Tame

variable {host : Host} {jit : Bool} {words : Set U32} {insts : List Inst} {s s' t t' : State}

theorem bare (h : Tame host jit words t) : t.mmu.isVirtualAddressing = false := (h.quiet 0).bare

theorem next (h : Tame host jit words t) (hb : t.mmu.buildFrom host.fuel t.pc = .ok insts)
    (hrun : (Uncached.iteration host).run t = .ok () t') :
    MMU.SameBytes (fetchedAfter words t.pc insts) t.mmu t'.mmu ∧
      Tame host jit (fetchedAfter words t.pc insts) t' := by
  have hnew := new_bare h.bare host
  rw [hb] at hnew
  refine ⟨((h.quiet 1).2 _ _ _ hnew hrun).1, fun n ↦ ((h.quiet (n + 1)).2 _ _ _ hnew hrun).2, ?_⟩
  intro hjit k u insts' hu
  refine h.safe hjit (k + 1) u insts' ?_
  rw [iterate, run_bind_of_ok hrun, hu]

theorem fetchedAfter_supported (words : Set U32) (pc : U32)
    (hsup : ∀ inst ∈ insts, inst.isTranslationSupported = true) :
    fetchedAfter words pc insts = words ∪ wordsOf pc insts.length := by
  refine Set.ext fun w ↦ and_iff_right ?_
  rintro ⟨inst, hi, hfence⟩
  have hfunc := not_flushed (hsup inst (List.mem_of_getLast? hi))
  exact hfunc.1 hfence

theorem retrace (h : Tame host jit words t) (hb : t.mmu.buildFrom host.fuel t.pc = .ok insts)
    (hsup : ∀ inst ∈ insts, inst.isTranslationSupported = true)
    (hx : Execution insts t t') (hpc : t'.pc = t.pc) :
    Tame host jit (words ∪ wordsOf t.pc insts.length) t' ∧ t'.mmu.buildFrom host.fuel t'.pc = .ok insts := by
  have hrun := (uncached_ok_iff h.bare hb).mpr hx
  obtain ⟨hbytes, htame⟩ := h.next hb hrun
  rw [fetchedAfter_supported _ _ hsup] at hbytes htame
  refine ⟨htame, ?_⟩
  obtain ⟨htrace, hcode⟩ := MMU.buildFrom_ok hb
  rw [hpc]
  refine MMU.buildFrom_of_codeAt htrace (hcode.congr (hx.mode hsup).size ?_) (MMU.buildFrom_length hb)
  exact TraceCache.sameWords_of_sameBytes hbytes Set.subset_union_right

section

variable (h : Tame host jit words t) (hb : t.mmu.buildFrom host.fuel t.pc = .ok insts)
  (hsup : ∀ inst ∈ insts, inst.isTranslationSupported = true) (hst : SameMachine s t)

include h hb hsup hst

theorem safeAlong (hjit : jit = true) : SafeAlong insts s := by
  intro u hu
  have hreach : ∃ words t', Tame host jit words t' ∧ SameMachine u t' ∧
      t'.mmu.buildFrom host.fuel t'.pc = .ok insts := by
    induction hu with
    | refl => exact ⟨words, t, h, hst, hb⟩
    | tail _ hstep ih =>
      obtain ⟨words, t', htame, hsame, hbuild⟩ := ih
      obtain ⟨hx, hagain⟩ := hstep
      obtain ⟨t'', hx', hsame', -⟩ := hx.alike hsame
      have hpc := hx.pc_again hagain (MMU.buildFrom_ok hb).1 hsup
      rw [hsame.pc, hsame'.pc] at hpc
      obtain ⟨htame', hbuild'⟩ := htame.retrace hbuild hsup hx' hpc
      exact ⟨_, t'', htame', hsame', hbuild'⟩
  obtain ⟨words, t', htame, hsame, hbuild⟩ := hreach
  intro i inst v hi hv
  obtain ⟨v', hv', hsame'⟩ := hv.alike hsame
  exact (htame.safe hjit 0 t' insts rfl hbuild hsup i inst v' hi hv').alike hsame'

theorem repeats {n : ℕ} (hrep : Repeats (Execution insts) (Again insts) n s s') : ∃ t',
    (iterate (Uncached.iteration host) n).run t = .ok () t' ∧ SameMachine s' t' ∧
      (s.executed_insts = t.executed_insts → s'.executed_insts = t'.executed_insts) ∧
      Tame host jit (words ∪ wordsOf t.pc insts.length) t' ∧
      MMU.SameBytes (words ∪ wordsOf t.pc insts.length) t.mmu t'.mmu ∧ MMU.SameMode t.mmu t'.mmu := by
  induction hrep generalizing t words with
  | once hx _ =>
    obtain ⟨t', hx', hsame, hcount⟩ := hx.alike hst
    have hrun := (uncached_ok_iff h.bare hb).mpr hx'
    obtain ⟨hbytes, htame⟩ := h.next hb hrun
    rw [fetchedAfter_supported _ _ hsup] at hbytes htame
    exact ⟨t', iterate_one.mpr hrun, hsame, hcount, htame, hbytes, hx'.mode hsup⟩
  | more hx hagain _ ih =>
    obtain ⟨t₁, hx', hsame, hcount⟩ := hx.alike hst
    have hrun := (uncached_ok_iff h.bare hb).mpr hx'
    obtain ⟨hbytes, -⟩ := h.next hb hrun
    rw [fetchedAfter_supported _ _ hsup] at hbytes
    have hpc := hx.pc_again hagain (MMU.buildFrom_ok hb).1 hsup
    rw [hst.pc, hsame.pc] at hpc
    obtain ⟨htame, hbuild⟩ := h.retrace hb hsup hx' hpc
    obtain ⟨t', hiter, hsame', hcount', htame', hbytes', hmode⟩ := ih htame hbuild hsame
    rw [hpc, Set.union_assoc, Set.union_self] at htame' hbytes'
    refine ⟨t', ?_, hsame', fun h ↦ hcount' (hcount h), htame', fun w hw b hl hu ↦ ?_,
      IsTrans.trans _ _ _ (hx'.mode hsup) hmode⟩
    · rw [iterate, run_bind_of_ok hrun, hiter]
    · exact (hbytes' w hw b hl hu).trans (hbytes w hw b hl hu)

theorem exists_repeats (hjit : jit = true) {layout : Layout} {n : ℕ} {u u' : State} {e : Stop}
    (hbare : Native.Bare layout s)
    (htotal : ∀ s, Native.Bare layout s → SafeAlong insts s → ∃ s', Execution insts s s')
    (hu : (iterate (Uncached.iteration host) n).run t = .ok () u)
    (hstop : (Uncached.iteration host).run u = .error e u') :
    ∃ m s', Repeats (Execution insts) (Again insts) m s s' := by
  induction n generalizing s t words with
  | zero =>
    obtain ⟨s', hx⟩ := htotal s hbare (h.safeAlong hb hsup hst hjit)
    obtain ⟨t', hx', -, -⟩ := hx.alike hst
    cases hu
    rw [(uncached_ok_iff h.bare hb).mpr hx'] at hstop
    cases hstop
  | succ n ih =>
    obtain ⟨s', hx⟩ := htotal s hbare (h.safeAlong hb hsup hst hjit)
    obtain ⟨t', hx', hsame, -⟩ := hx.alike hst
    rw [iterate, run_bind_of_ok ((uncached_ok_iff h.bare hb).mpr hx')] at hu
    by_cases hagain : Again insts s'
    · have hpc := hx.pc_again hagain (MMU.buildFrom_ok hb).1 hsup
      rw [hst.pc, hsame.pc] at hpc
      obtain ⟨htame, hbuild⟩ := h.retrace hb hsup hx' hpc
      obtain ⟨m, s'', hm⟩ := ih htame hbuild hsame (hbare.mode (hx.mode hsup)) hu
      exact ⟨m + 1, s'', .more hx hagain hm⟩
    · exact ⟨1, s', .once hx hagain⟩

end

end Tame

/-- The cache works, its traces are what memory holds, made of the fetched words, and their native
code is their translation. -/
structure Current (host : Host) (jit : Bool) (words : Set U32) (s : State) : Prop where
  valid : s.trace_cache.Valid
  roomy : ¬ s.trace_cache.Stuck
  pos : 1 ≤ s.trace_cache.max_size_
  fresh : ∀ key trace, s.trace_cache.Maps key trace →
    s.mmu.buildFrom host.fuel key = .ok trace.trace_ ∧ wordsOf key trace.trace_.length ⊆ words
  code : ∀ key trace code, s.trace_cache.Maps key trace → trace.exec_trace_ = some code →
    jit = true ∧ getFunc trace.trace_ false = some code

namespace Current

variable {host : Host} {jit : Bool} {opts : Options} {words : Set U32} {s s' t : State}

theorem new {cap : ℕ} (hcap : 1 ≤ cap) (h : s.trace_cache = .new cap) : Current host jit ∅ s := by
  obtain ⟨hvalid, hroomy, hpos, -⟩ : TraceCache.Coherent host ∅ s := .new hcap h
  refine ⟨hvalid, hroomy, hpos, fun key trace hm ↦ ?_, fun key trace code hm ↦ ?_⟩
  all_goals
    rw [h] at hm
    obtain ⟨e, he, -⟩ := hm
    cases he

theorem keep (h : Current host jit words s) (hcache : s'.trace_cache = s.trace_cache)
    (hsize : s'.mmu.pmem_size_ = s.mmu.pmem_size_) (hbytes : MMU.SameBytes words s.mmu s'.mmu) :
    Current host jit words s' := by
  refine ⟨?_, ?_, ?_, fun key trace hm ↦ ?_, fun key trace code hm ↦ ?_⟩
  · rw [hcache]
    exact h.valid
  · rw [hcache]
    exact h.roomy
  · rw [hcache]
    exact h.pos
  · rw [hcache] at hm
    obtain ⟨hb, hw⟩ := h.fresh key trace hm
    obtain ⟨ht, hc⟩ := MMU.buildFrom_ok hb
    refine ⟨MMU.buildFrom_of_codeAt ht (hc.congr hsize ?_) (MMU.buildFrom_length hb), hw⟩
    exact TraceCache.sameWords_of_sameBytes hbytes hw
  · rw [hcache] at hm
    exact h.code key trace code hm

theorem clear (h : Current host jit words s) (hcache : s'.trace_cache = s.trace_cache.clear)
    (words' : Set U32) : Current host jit words' s' := by
  refine ⟨?_, ?_, ?_, fun key trace hm ↦ ?_, fun key trace code hm ↦ ?_⟩
  · rw [hcache]
    exact LRUCache.clear_valid _
  · rw [hcache]
    intro hs
    have h0 : 0 = s.trace_cache.max_size_ := hs.2
    have hpos := h.pos
    omega
  · rw [hcache]
    exact h.pos
  · rw [hcache] at hm
    exact absurd hm (LRUCache.not_maps_clear _ _ _)
  · rw [hcache] at hm
    exact absurd hm (LRUCache.not_maps_clear _ _ _)

theorem mono (h : Current host jit words s) {words' : Set U32} (hw : words ⊆ words') :
    Current host jit words' s :=
  ⟨h.valid, h.roomy, h.pos, fun key trace hm ↦ (h.fresh key trace hm).imp_right fun h ↦ h.trans hw, h.code⟩

theorem referred (h : Current host jit words s) {c : LRUCache U32 Trace} {addr : ℕ} {trace : Trace}
    (hb : s.mmu.buildFrom host.fuel s.pc = .ok trace.trace_)
    (hcode : ∀ code, trace.exec_trace_ = some code → jit = true ∧ getFunc trace.trace_ false = some code)
    (hr : TraceCache.Referred s c addr trace) :
    Current host jit (words ∪ wordsOf s.pc trace.trace_.length) { s with trace_cache := c } := by
  refine ⟨hr.valid, fun hs ↦ hr.nonempty hs.1, ?_, fun key v hm ↦ ?_, fun key v code hm hsome ↦ ?_⟩
  · change 1 ≤ c.max_size_
    rw [hr.max]
    exact h.pos
  · rcases hr.maps key v hm with ⟨rfl, rfl⟩ | hold
    · exact ⟨hb, Set.subset_union_right⟩
    · obtain ⟨hbuild, hw⟩ := h.fresh key v hold
      exact ⟨hbuild, hw.trans Set.subset_union_left⟩
  · rcases hr.maps key v hm with ⟨rfl, rfl⟩ | hold
    · exact hcode code hsome
    · exact h.code key v code hold hsome

theorem attempted (h : Current host opts.jit words s) (hv : s.mmu.isVirtualAddressing = false)
    {addr : ℕ} {trace : Trace} (hd : s.trace_cache.deref addr = some trace) :
    Current host opts.jit words { s with
      trace_cache := s.trace_cache.modifyAt addr (Trace.attempted opts s.mmu.isVirtualAddressing) } := by
  have hl := Trace.Links.modifyAt h.valid hd (Trace.attempted_linked opts s.mmu.isVirtualAddressing trace)
  refine ⟨hl.valid, fun hs ↦ h.roomy ⟨List.map_eq_nil_iff.mp hs.1, hs.2⟩, h.pos, fun key trace' hm ↦ ?_,
    fun key trace' code hm hsome ↦ ?_⟩
  · obtain ⟨v, hm', hlinked⟩ := hl.maps key trace' hm
    rw [hlinked.insts]
    exact h.fresh key v hm'
  · obtain ⟨v, hm', hlinked⟩ := hl.maps key trace' hm
    rw [hlinked.insts]
    rcases hlinked.code code hsome with hold | ⟨hjit, hnew⟩
    · exact h.code key v code hm' hold
    · rw [hv] at hnew
      exact ⟨hjit, hnew⟩

theorem begins (opts : Options) (h : Current host opts.jit words s) (hv : s.mmu.isVirtualAddressing = false) :
    (∃ e c, s.mmu.buildFrom host.fuel s.pc = .error e ∧
      (Sim.iteration opts host).run s = .error e { s with trace_cache := c }) ∨
    ∃ addr c trace, s.mmu.buildFrom host.fuel s.pc = .ok trace.trace_ ∧
      Sim.Begins opts host s addr trace { s with trace_cache := c } ∧
      Current host opts.jit (words ∪ wordsOf s.pc trace.trace_.length) { s with trace_cache := c } := by
  have hbegins : ∀ addr c trace, s.mmu.buildFrom host.fuel s.pc = .ok trace.trace_ →
      (∀ code, trace.exec_trace_ = some code → opts.jit = true ∧ getFunc trace.trace_ false = some code) →
      TraceCache.Referred s c addr trace →
      (TraceCache.refer host).run s = .ok addr { s with trace_cache := c } →
      ∃ addr c trace, s.mmu.buildFrom host.fuel s.pc = .ok trace.trace_ ∧
        Sim.Begins opts host s addr trace { s with trace_cache := c } ∧
        Current host opts.jit (words ∪ wordsOf s.pc trace.trace_.length) { s with trace_cache := c } := by
    intro addr c trace hb hcode hr hrun
    have hcur := (h.referred hb hcode hr).attempted hv hr.deref
    have htry := Trace.tryTranslate_eq (s := { s with trace_cache := c }) opts hr.valid hr.deref
    have hd := LRUCache.deref_modifyAt hr.deref (Trace.attempted opts s.mmu.isVirtualAddressing)
    have hinsts := (Trace.attempted_linked opts s.mmu.isVirtualAddressing trace).insts
    rw [← hinsts] at hb hcur
    refine ⟨addr, _, _, hb, ⟨?_, hd⟩, hcur⟩
    rw [run_bind_of_ok hrun, run_bind_of_ok htry]
    rfl
  rcases TraceCache.refer_cases host h.valid h.roomy hv with ⟨addr, c, trace, hm, hr, hrun⟩ |
    ⟨addr, c, insts, hb, hr, hrun⟩ | ⟨e, c, hb, hrun⟩
  · exact .inr (hbegins addr c trace (h.fresh _ _ hm).1 (fun code ↦ h.code _ _ code hm) hr hrun)
  · exact .inr (hbegins addr c { trace_ := insts } hb nofun hr hrun)
  · exact .inl ⟨e, c, hb, by rw [Sim.iteration, run_bind_of_error hrun]⟩

end Current

theorem MMU.CodeAt.decodes {mmu : MMU} {va : U32} {insts : List Inst} (h : mmu.CodeAt va insts) :
    ∀ inst ∈ insts, Decodes inst := by
  induction insts generalizing va with
  | nil => nofun
  | cons inst rest ih =>
    intro i hi
    rcases List.mem_cons.mp hi with rfl | hi
    · obtain ⟨ptr, -, hdec⟩ := bind_eq_ok.mp h.1
      exact decodes_of_decode hdec
    · exact ih h.2 i hi

/-- While no trace ends in a FENCE the instructions are counted alike, if that is what is asked. -/
def Tallied (host : Host) (asked : Prop) (s t : State) : Prop :=
  asked → s.executed_insts = t.executed_insts ∧ Unfenced host t

/-- The simulator, beside the machine without a cache. -/
structure Paired (host : Host) (jit : Bool) (asked : Prop) (words : Set U32) (s t : State) : Prop where
  current : Current host jit words s
  tame : Tame host jit words t
  same : SameMachine s t
  side : host.layout.Beside s.mmu.pmem_size_
  count : Tallied host asked s t

/-- The simulator has come to where the other machine is. -/
def Meets (host : Host) (jit : Bool) (asked : Prop) (s t : State) : Prop :=
  ∃ words, Paired host jit asked words s t

namespace Paired

variable {host : Host} {jit : Bool} {asked : Prop} {words : Set U32} {insts : List Inst} {s s' t t' : State}

theorem bare (h : Paired host jit asked words s t) : Native.Bare host.layout s := by
  refine ⟨?_, h.side⟩
  rw [h.same.mmu]
  exact h.tame.bare

end Paired

/-- A round has come to the trace that memory holds. -/
structure Entered (host : Host) (jit : Bool) (asked : Prop) (words : Set U32) (insts : List Inst)
    (s t : State) : Prop where
  current : Current host jit (words ∪ wordsOf t.pc insts.length) s
  tame : Tame host jit words t
  same : SameMachine s t
  side : host.layout.Beside s.mmu.pmem_size_
  count : Tallied host asked s t
  build : t.mmu.buildFrom host.fuel t.pc = .ok insts

namespace Entered

variable {host : Host} {jit : Bool} {asked : Prop} {words : Set U32} {insts : List Inst} {s s' t : State}
  (h : Entered host jit asked words insts s t)

include h

theorem interpreted {addr : ℕ} {trace : Trace} (hd : s.trace_cache.deref addr = some trace)
    (hinsts : trace.trace_ = insts) :
    Covers (Uncached.iteration host) (fun _ ↦ False) (Meets host jit asked) SameMachine 1
      ((do
        let _ ← execFrom 0 insts
        let size ← Trace.size host addr
        modify fun s ↦ { s with executed_insts := s.executed_insts + size } : Run Unit).run s) t := by
  have hun := uncached_run h.tame.bare h.build
  have halike := execFrom_alike h.same 0 insts
  cases hx : (execFrom 0 insts).run s with
  | error e s' =>
    rw [hx] at halike
    rw [run_bind_of_error hx]
    generalize hr : (execFrom 0 insts).run t = r at halike
    cases halike with
    | error hst' => exact .stops (.now (hun.trans (run_bind_of_error hr))) hst'
  | ok visited s' =>
    rw [hx] at halike
    generalize hr : (execFrom 0 insts).run t = r at halike
    cases halike with
    | @ok _ visited' _ t' _ hst' =>
      obtain ⟨size, hsize⟩ := TraceCache.size_run host addr s'
      rw [run_bind_of_ok hx, run_bind_of_ok hsize]
      have hexec : Execution insts t
          { t' with executed_insts := t'.executed_insts + BitVec.ofNat 64 insts.length } :=
        ⟨visited', t', hr, rfl⟩
      have hrun := (uncached_ok_iff h.tame.bare h.build).mpr hexec
      obtain ⟨hbytes, htame'⟩ := h.tame.next h.build hrun
      have hsize' : s'.mmu.pmem_size_ = s.mmu.pmem_size_ := (execFrom_keeps_size 0 insts).of_ok hx
      have hfences := execFrom_cache (MMU.buildFrom_ok h.build).1 hx
      refine .steps le_rfl (iterate_one.mpr hrun) ⟨_, ⟨?_, htame', ?_, ?_, fun hasked ↦ ?_⟩⟩
      · rcases hfences with ⟨hfence, hcache⟩ | ⟨-, hcache⟩
        · have hwords : fetchedAfter words t.pc insts = words ∪ wordsOf t.pc insts.length :=
            Set.ext fun w ↦ and_iff_right hfence
          rw [hwords] at hbytes ⊢
          refine h.current.keep hcache hsize' ?_
          rw [h.same.mmu, show _ = _ from hst'.mmu]
          exact hbytes
        · refine h.current.clear ?_ _
          exact hcache
      · exact ⟨hst'.regs, hst'.pc, hst'.mmu, hst'.world⟩
      · change host.layout.Beside s'.mmu.pmem_size_
        rw [hsize']
        exact h.side
      · obtain ⟨heq, hunfenced⟩ := h.count hasked
        refine ⟨?_, hunfenced.next (iterate_one.mpr hrun)⟩
        rcases hfences with ⟨-, hcache⟩ | ⟨hfence, -⟩
        · have hlength : (Trace.size host addr).run s' = .ok (BitVec.ofNat 64 insts.length) s' := by
            rw [Trace.size, run_bind_of_ok (EStateM.run_get s'), hcache, hd, ← hinsts]
            rfl
          rw [hlength] at hsize
          cases hsize
          have hexec' : Execution insts s
              { s' with executed_insts := s'.executed_insts + BitVec.ofNat 64 insts.length } :=
            ⟨visited, s', hx, rfl⟩
          exact hexec'.count.trans ((congrArg (· + _) heq).trans hexec.count.symm)
        · exact absurd hfence (hunfenced 0 t insts rfl h.build)

variable (hjit : jit = true) {code : NativeCode} (hf : getFunc insts false = some code)

include hjit hf

theorem starts : Ready host.layout (start host.layout (host.regs s) s) ∧ Native.Bare host.layout s ∧
    SafeAlong insts s := by
  refine ⟨ready_start _ _, ⟨?_, h.side⟩, h.tame.safeAlong h.build (supported_of_getFunc hf) h.same hjit⟩
  rw [h.same.mmu]
  exact h.tame.bare

/-- What native code does if its fuel lasts is an iteration for each time it goes through the trace. -/
theorem native {fuel : ℕ} (hrun : (Trace.native { host with fuel := fuel } code).run s = .ok () s') :
    ∃ n t', 1 ≤ n ∧ (iterate (Uncached.iteration host) n).run t = .ok () t' ∧ Meets host jit asked s' t' := by
  have hsup := supported_of_getFunc hf
  obtain ⟨htrace, hcode⟩ := MMU.buildFrom_ok h.build
  obtain ⟨hpasses, -⟩ := @passes_safe host.layout host.clobber _ _ htrace hcode.decodes hf
  have hcache := (Trace.native_cache { host with fuel := fuel } code).of_ok hrun
  change Trace.native { host with fuel := fuel } code s = .ok () s' at hrun
  cases hr : (X86.run (env host.layout host.clobber) .outOfFuel code fuel code).run
    (start host.layout (host.regs s) s) with
  | error e m =>
    rw [Trace.native, hr] at hrun
    cases hrun
  | ok u m =>
    rw [Trace.native, hr] at hrun
    cases hrun
    obtain ⟨n, hn⟩ := hpasses.repeats (h.starts hjit hf) hr
    obtain ⟨t', hsteps, hst', hcount, htame', hbytes, hmode⟩ := h.tame.repeats h.build hsup h.same hn
    have hsize : m.world.mmu.pmem_size_ = s.mmu.pmem_size_ := by
      rw [hst'.mmu, h.same.mmu]
      exact hmode.size
    refine ⟨n, t', hn.pos, hsteps, _, h.current.keep hcache hsize ?_, htame', hst', ?_, fun hasked ↦ ?_⟩
    · rw [hst'.mmu, h.same.mmu]
      exact hbytes
    · rw [hsize]
      exact h.side
    · exact ⟨hcount (h.count hasked).1, (h.count hasked).2.next hsteps⟩

theorem native_error {fuel : ℕ} {e : Stop}
    (hrun : (Trace.native { host with fuel := fuel } code).run s = .error e s') : e = .outOfFuel := by
  obtain ⟨htrace, hcode⟩ := MMU.buildFrom_ok h.build
  obtain ⟨hpasses, htotal⟩ := @passes_safe host.layout host.clobber _ _ htrace hcode.decodes hf
  change Trace.native { host with fuel := fuel } code s = .error e s' at hrun
  cases hr : (X86.run (env host.layout host.clobber) .outOfFuel code fuel code).run
    (start host.layout (host.regs s) s) with
  | ok u m =>
    rw [Trace.native, hr] at hrun
    cases hrun
  | error e m =>
    rw [Trace.native, hr] at hrun
    cases hrun
    exact hpasses.spent (fun m hm ↦ htotal m.world hm.2.1 hm.2.2) (h.starts hjit hf) hr

theorem native_returns {e : Stop} {t' : State} (hstop : Stops (Uncached.iteration host) t e t') :
    ∃ k s', (Trace.native (host.more k) code).run s = .ok () s' := by
  have hsup := supported_of_getFunc hf
  obtain ⟨htrace, hcode⟩ := MMU.buildFrom_ok h.build
  obtain ⟨hpasses, htotal⟩ := @passes_safe host.layout host.clobber _ _ htrace hcode.decodes hf
  obtain ⟨n, u, hu, hstop⟩ := hstop
  obtain ⟨m, s', hm⟩ := h.tame.exists_repeats h.build hsup h.same hjit (h.starts hjit hf).2.1 htotal hu hstop
  obtain ⟨m', rfl, k, hk⟩ := hpasses.of_repeats (h.starts hjit hf) hm
  refine ⟨k + 1, m'.world, ?_⟩
  have hr : (X86.run (env (host.more (k + 1)).layout (host.more (k + 1)).clobber) .outOfFuel code
      (host.more (k + 1)).fuel code).run
        (start (host.more (k + 1)).layout ((host.more (k + 1)).regs s) s) = .ok () m' :=
    hk .outOfFuel (host.fuel + (k + 1)) (by omega)
  change Trace.native (host.more (k + 1)) code s = .ok () m'.world
  rw [Trace.native, hr]

end Entered

/-- A round of the simulator, whatever the options and the size of its cache: it is an iteration of the
machine without a cache, or both stop, or it is a call of native code. -/
theorem Meets.round {host : Host} {opts : Options} {asked : Prop} {s t : State}
    (h : Meets host opts.jit asked s t) :
    Covers (Uncached.iteration host) (fun _ ↦ False) (Meets host opts.jit asked) SameMachine 1
      ((Sim.iteration opts host).run s) t ∨
    ∃ words addr trace code s₁, Sim.Begins opts host s addr trace s₁ ∧ trace.exec_trace_ = some code ∧
      Entered host opts.jit asked words trace.trace_ s₁ t ∧ opts.jit = true ∧
      getFunc trace.trace_ false = some code := by
  obtain ⟨words, h⟩ := h
  obtain ⟨hv, hside⟩ := h.bare
  rcases h.current.begins opts hv with ⟨e, c, hb, hrun⟩ | ⟨addr, c, trace, hb, hbegins, hcur⟩
  · rw [h.same.mmu, h.same.pc] at hb
    rw [hrun]
    exact .inl (.stops (.now (uncached_error h.tame.bare hb))
      ⟨h.same.regs, h.same.pc, h.same.mmu, h.same.world⟩)
  · have hst : SameMachine { s with trace_cache := c } t :=
      ⟨h.same.regs, h.same.pc, h.same.mmu, h.same.world⟩
    rw [h.same.mmu, h.same.pc] at hb
    have hcode := hcur.code
    rw [show wordsOf s.pc _ = wordsOf t.pc _ from congrArg (wordsOf · _) h.same.pc] at hcur
    have hentered : Entered host opts.jit asked words trace.trace_ { s with trace_cache := c } t :=
      ⟨hcur, h.tame, hst, hside, h.count, hb⟩
    cases hc : trace.exec_trace_ with
    | none =>
      rw [hbegins.interpreted hc]
      exact .inl (hentered.interpreted hbegins.alive rfl)
    | some code =>
      obtain ⟨key, hm⟩ := LRUCache.maps_of_deref hbegins.alive
      exact .inr ⟨words, addr, trace, code, _, hbegins, hc, hentered, hcode _ _ _ hm hc⟩

end RiscvSim
