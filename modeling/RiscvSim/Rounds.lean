import RiscvSim.TraceCache
import RiscvSim.Library.X86Run

namespace RiscvSim

open Isa Ir State Results

namespace Trace

/-- Native code, where a trace has any, is its translation. -/
structure Fit (jit : Bool) (Q : List Inst → Prop) (trace : Trace) : Prop where
  insts : Q trace.trace_
  code : ∀ code, trace.exec_trace_ = some code →
    jit = true ∧ ∃ virt, Translator.getFunc trace.trace_ virt = some code

/-- The same trace, which may have got its translation as native code. -/
structure Linked (jit virt : Bool) (trace trace' : Trace) : Prop where
  insts : trace'.trace_ = trace.trace_
  code : ∀ code, trace'.exec_trace_ = some code → trace.exec_trace_ = some code ∨
    jit = true ∧ Translator.getFunc trace.trace_ virt = some code

theorem Linked.refl (jit virt : Bool) (trace : Trace) : Linked jit virt trace trace :=
  ⟨rfl, fun _ h ↦ .inl h⟩

theorem Linked.trans {jit virt : Bool} {t t' t'' : Trace} (h : Linked jit virt t t')
    (h' : Linked jit virt t' t'') : Linked jit virt t t'' where
  insts := h'.insts.trans h.insts
  code code hcode := by
    rcases h'.code code hcode with hold | hnew
    · exact h.code code hold
    · rw [h.insts] at hnew
      exact .inr hnew

theorem Linked.fit {jit virt : Bool} {Q : List Inst → Prop} {trace trace' : Trace}
    (h : Linked jit virt trace trace') (hf : trace.Fit jit Q) : trace'.Fit jit Q where
  insts := by
    rw [h.insts]
    exact hf.insts
  code code hcode := by
    rw [h.insts]
    rcases h.code code hcode with hold | ⟨hjit, hnew⟩
    · exact hf.code code hold
    · exact ⟨hjit, virt, hnew⟩

/-- The cache holds the same traces, some of them linked. -/
structure Links (jit virt : Bool) (c c' : LRUCache U32 Trace) : Prop where
  valid : c'.Valid
  maps : ∀ key trace', c'.Maps key trace' → ∃ trace, c.Maps key trace ∧ Linked jit virt trace trace'

namespace Links

variable {jit virt : Bool} {c c' c'' : LRUCache U32 Trace}

theorem refl (virt : Bool) (hc : c.Valid) : Links jit virt c c :=
  ⟨hc, fun _ trace hm ↦ ⟨trace, hm, .refl jit virt trace⟩⟩

theorem trans (h : Links jit virt c c') (h' : Links jit virt c' c'') : Links jit virt c c'' where
  valid := h'.valid
  maps key trace'' hm := by
    obtain ⟨trace', hm', hl'⟩ := h'.maps key trace'' hm
    obtain ⟨trace, hm, hl⟩ := h.maps key trace' hm'
    exact ⟨trace, hm, hl.trans hl'⟩

theorem modifyAt (hc : c.Valid) {addr : ℕ} {trace : Trace} (hd : c.deref addr = some trace)
    {f : Trace → Trace} (hf : Linked jit virt trace (f trace)) :
    Links jit virt c (c.modifyAt addr f) where
  valid := LRUCache.modifyAt_valid hc addr f
  maps key trace' hm := by
    obtain ⟨v, hv, rfl | ⟨hd', rfl⟩⟩ := LRUCache.maps_modifyAt hc hm
    · exact ⟨_, hv, .refl jit virt _⟩
    · rw [hd] at hd'
      cases hd'
      exact ⟨_, hv, hf⟩

end Links

/-- A fetch leaves everything but the memory's buffers and the cache alone. -/
structure Fetched (s s' : State) : Prop where
  regs : s'.regs = s.regs
  pc : s'.pc = s.pc
  insts : s'.executed_insts = s.executed_insts
  world : s'.world = s.world
  mode : MMU.SameMode s.mmu s'.mmu

instance : Std.Refl Fetched := ⟨fun s ↦ ⟨rfl, rfl, rfl, rfl, refl s.mmu⟩⟩

instance : IsTrans State Fetched where
  trans _ _ _ h h' := ⟨h'.regs.trans h.regs, h'.pc.trans h.pc, h'.insts.trans h.insts,
    h'.world.trans h.world, IsTrans.trans _ _ _ h.mode h'.mode⟩

theorem fetched_cache (c : LRUCache U32 Trace) (s : State) : Fetched s { s with trace_cache := c } :=
  ⟨rfl, rfl, rfl, rfl, refl s.mmu⟩

theorem getCmd_keeps (va : U32) : Keeps Fetched (getCmd va) :=
  Keeps.zoom (MMU.load_sameMode 4 va true) fun _ _ h ↦ ⟨rfl, rfl, rfl, rfl, h⟩

theorem fetchFrom_keeps (fuel : ℕ) (va : U32) : Keeps Fetched (fetchFrom fuel va) := by
  induction fuel generalizing va with
  | zero => exact Keeps.throw _
  | succ fuel ih =>
    refine (getCmd_keeps va).bind fun cmd ↦ (Keeps.lift _).bind fun inst ↦ Keeps.ite (Keeps.pure _) ?_
    exact (ih _).bind fun _ ↦ Keeps.pure _

theorem fetchFrom_keeps_cache (fuel : ℕ) (va : U32) :
    Keeps (fun s s' : State ↦ s'.trace_cache = s.trace_cache) (fetchFrom fuel va) := by
  have := stable_cache.refl
  have := stable_cache.trans
  induction fuel generalizing va with
  | zero => exact Keeps.throw _
  | succ fuel ih =>
    refine (stable_cache.getCmd va).bind fun cmd ↦ (Keeps.lift _).bind fun inst ↦
      Keeps.ite (Keeps.pure _) ?_
    exact (ih _).bind fun _ ↦ Keeps.pure _

/-- In any addressing mode the constructor's loop ends with the first terminator. -/
theorem fetchFrom_isTrace {fuel : ℕ} {va : U32} {s s' : State} {insts : List Inst}
    (h : (fetchFrom fuel va).run s = .ok insts s') : IsTrace insts ∧ insts.length ≤ fuel := by
  induction fuel generalizing va s insts with
  | zero => cases h
  | succ fuel ih =>
    obtain ⟨cmd, s₁, -, h₁⟩ := run_bind_eq_ok.mp h
    obtain ⟨inst, s₂, -, h₂⟩ := run_bind_eq_ok.mp h₁
    cases ht : inst.isTerminator with
    | true =>
      rw [if_pos ht] at h₂
      cases h₂
      exact ⟨ht, Nat.le_add_left 1 fuel⟩
    | false =>
      rw [if_neg (by rw [ht]; exact Bool.false_ne_true)] at h₂
      obtain ⟨rest, s₂, h₃, hr⟩ := run_bind_eq_ok.mp h₂
      cases hr
      obtain ⟨htr, hlen⟩ := ih h₃
      exact ⟨(isTrace_cons htr.ne_nil).mpr ⟨ht, htr⟩, Nat.succ_le_succ hlen⟩

variable {host : Host} {s s' : State}

theorem new_ok {trace : Trace} (h : (new host).run s = .ok trace s') :
    ∃ insts, trace = { trace_ := insts } ∧ (fetchFrom host.fuel s.pc).run s = .ok insts s' := by
  obtain ⟨pc, s₁, hpc, h₁⟩ := run_bind_eq_ok.mp h
  cases hpc
  obtain ⟨insts, s₂, hf, h₂⟩ := run_bind_eq_ok.mp h₁
  cases h₂
  exact ⟨insts, rfl, hf⟩

theorem new_cache {trace : Trace} (h : (new host).run s = .ok trace s') :
    s'.trace_cache = s.trace_cache := by
  obtain ⟨insts, -, hf⟩ := new_ok h
  exact (fetchFrom_keeps_cache _ _).of_ok hf

theorem new_keeps : Keeps Fetched (new host) :=
  Keeps.bind (refl ·) fun _ ↦ (fetchFrom_keeps _ _).bind fun _ ↦ Keeps.pure _

end Trace

/-- Every trace of the cache is fit. -/
structure Sound (jit : Bool) (Q : List Inst → Prop) (s : State) : Prop where
  valid : s.trace_cache.Valid
  fit : ∀ key trace, s.trace_cache.Maps key trace → trace.Fit jit Q

namespace Sound

variable {jit : Bool} {Q : List Inst → Prop} {s s' : State}

theorem new (cap : ℕ) (h : s.trace_cache = .new cap) : Sound jit Q s where
  valid := by
    rw [h]
    exact LRUCache.new_valid cap
  fit key trace hm := by
    rw [h] at hm
    obtain ⟨e, he, -⟩ := hm
    cases he

theorem of_cache (h : Sound jit Q s) (hc : s'.trace_cache = s.trace_cache) : Sound jit Q s' where
  valid := by
    rw [hc]
    exact h.valid
  fit := by
    rw [hc]
    exact h.fit

theorem clear (hc : s'.trace_cache = s.trace_cache.clear) : Sound jit Q s' where
  valid := by
    rw [hc]
    exact s.trace_cache.clear_valid
  fit key trace hm := by
    rw [hc] at hm
    exact absurd hm (LRUCache.not_maps_clear _ _ _)

theorem deref (h : Sound jit Q s) {addr : ℕ} {trace : Trace}
    (hd : s.trace_cache.deref addr = some trace) : trace.Fit jit Q := by
  obtain ⟨key, hm⟩ := LRUCache.maps_of_deref hd
  exact h.fit key trace hm

theorem links (h : Sound jit Q s) {virt : Bool} {c : LRUCache U32 Trace}
    (hl : Trace.Links jit virt s.trace_cache c) : Sound jit Q { s with trace_cache := c } where
  valid := hl.valid
  fit key trace' hm := by
    obtain ⟨trace, hm, hlinked⟩ := hl.maps key trace' hm
    exact hlinked.fit (h.fit key trace hm)

end Sound

namespace TraceCache

variable {host : Host} {jit : Bool} {Q : List Inst → Prop} {s s' : State}

theorem refer_keeps : Keeps Trace.Fetched (refer host) :=
  Keeps.bind (refl ·) fun _ ↦
    (LRUCache.insert_keeps Trace.fetched_cache _ Trace.new_keeps).bind fun _ ↦ Keeps.pure _

theorem refer_sound (h : Sound jit Q s)
    (hQ : ∀ c insts t, (Trace.fetchFrom host.fuel s.pc).run { s with trace_cache := c } = .ok insts t →
      Q insts) {addr : ℕ} (hrun : (refer host).run s = .ok addr s') :
    Sound jit Q s' ∧ ∃ trace, s'.trace_cache.deref addr = some trace := by
  obtain ⟨pc, s₁, hpc, h₁⟩ := run_bind_eq_ok.mp hrun
  cases hpc
  obtain ⟨res, s₂, hins, h₂⟩ := run_bind_eq_ok.mp h₁
  cases h₂
  obtain ⟨trace, hvalid, hd, hmaps, hfrom⟩ := LRUCache.insert_ok cache h.valid (fun _ _ _ ↦ Trace.new_cache) hins
  have hfit : trace.Fit jit Q := by
    rcases hfrom with ⟨hm, -⟩ | ⟨-, c, -, t, hnew, -⟩
    · exact h.fit _ _ hm
    · obtain ⟨insts, rfl, hf⟩ := Trace.new_ok hnew
      exact ⟨hQ c insts t hf, nofun⟩
  refine ⟨⟨hvalid, fun key trace' hm ↦ ?_⟩, trace, hd⟩
  rcases hmaps key trace' hm with ⟨-, rfl⟩ | hm
  · exact hfit
  · exact h.fit key trace' hm

end TraceCache

namespace Trace

variable {opts : Options} {host : Host} {Q : List Inst → Prop} {s : State} {addr : ℕ} {trace : Trace}

theorem at_run (hd : s.trace_cache.deref addr = some trace) : (at_ addr).run s = .ok trace s := by
  rw [at_, run_bind_of_ok (EStateM.run_get s), hd]
  rfl

/-- What becomes of a trace in the attempt to translate it. -/
def attempted (opts : Options) (virt : Bool) (trace : Trace) : Trace :=
  if opts.jit ∧ trace.is_eligible_ ∧ trace.exec_trace_.isNone then
    if opts.jit_threshold = trace.exec_num_ then
      match Translator.getFunc trace.trace_ virt with
      | none => { trace with exec_num_ := trace.exec_num_ + 1, is_eligible_ := false }
      | some func => { trace with exec_num_ := trace.exec_num_ + 1, exec_trace_ := some func }
    else { trace with exec_num_ := trace.exec_num_ + 1 }
  else trace

section

variable (hon : opts.jit ∧ trace.is_eligible_ ∧ trace.exec_trace_.isNone) {virt : Bool}

include hon

theorem attempted_none (ht : opts.jit_threshold = trace.exec_num_)
    (hf : Translator.getFunc trace.trace_ virt = none) : attempted opts virt trace =
      { trace with exec_num_ := trace.exec_num_ + 1, is_eligible_ := false } := by
  rw [attempted, if_pos hon, if_pos ht, hf]

theorem attempted_some (ht : opts.jit_threshold = trace.exec_num_) {func : NativeCode}
    (hf : Translator.getFunc trace.trace_ virt = some func) : attempted opts virt trace =
      { trace with exec_num_ := trace.exec_num_ + 1, exec_trace_ := some func } := by
  rw [attempted, if_pos hon, if_pos ht, hf]

theorem attempted_waits (ht : opts.jit_threshold ≠ trace.exec_num_) : attempted opts virt trace =
    { trace with exec_num_ := trace.exec_num_ + 1 } := by
  rw [attempted, if_pos hon, if_neg ht]

end

theorem attempted_linked (opts : Options) (virt : Bool) (trace : Trace) :
    Linked opts.jit virt trace (attempted opts virt trace) := by
  unfold attempted
  split
  · next hc =>
    split
    · split
      · exact ⟨rfl, fun _ h ↦ .inl h⟩
      · next func hf =>
        refine ⟨rfl, fun code hcode ↦ .inr ⟨hc.1, ?_⟩⟩
        cases hcode
        exact hf
    · exact ⟨rfl, fun _ h ↦ .inl h⟩
  · exact .refl _ _ trace

theorem tryTranslate_eq (opts : Options) (hv : s.trace_cache.Valid)
    (hd : s.trace_cache.deref addr = some trace) : (tryTranslate opts addr).run s = .ok () { s with
      trace_cache := s.trace_cache.modifyAt addr (attempted opts s.mmu.isVirtualAddressing) } := by
  have hto : ∀ t, attempted opts s.mmu.isVirtualAddressing trace = t →
      s.trace_cache.modifyAt addr (attempted opts s.mmu.isVirtualAddressing) =
        s.trace_cache.modifyAt addr fun _ ↦ t :=
    fun t ht ↦ LRUCache.modifyAt_congr hv hd ht
  have hidle : attempted opts s.mmu.isVirtualAddressing trace = trace →
      s.trace_cache.modifyAt addr (attempted opts s.mmu.isVirtualAddressing) = s.trace_cache :=
    fun h ↦ (LRUCache.modifyAt_congr hv hd h).trans (LRUCache.modifyAt_self _ _)
  rw [tryTranslate]
  cases hjit : opts.jit with
  | false =>
    rw [if_neg Bool.false_ne_true, hidle (if_neg (by simp [hjit]))]
    rfl
  | true =>
    rw [if_pos rfl, run_bind_of_ok (at_run hd)]
    by_cases hc : trace.is_eligible_ ∧ trace.exec_trace_.isNone
    · have hon := And.intro hjit hc
      rw [if_pos hc, update, run_bind_of_ok (EStateM.run_modify _ _)]
      by_cases ht : opts.jit_threshold = trace.exec_num_
      · rw [if_pos ht, run_bind_of_ok (EStateM.run_get _)]
        cases hf : Translator.getFunc trace.trace_ s.mmu.isVirtualAddressing with
        | none =>
          rw [hto _ (attempted_none hon ht hf)]
          refine congrArg (fun c ↦ EStateM.Result.ok () { s with trace_cache := c }) ?_
          rw [LRUCache.modifyAt_modifyAt]
          exact LRUCache.modifyAt_congr hv hd rfl
        | some func =>
          rw [hto _ (attempted_some hon ht hf)]
          refine congrArg (fun c ↦ EStateM.Result.ok () { s with trace_cache := c }) ?_
          rw [LRUCache.modifyAt_modifyAt]
          exact LRUCache.modifyAt_congr hv hd rfl
      · rw [if_neg ht, hto _ (attempted_waits hon ht)]
        refine congrArg (fun c ↦ EStateM.Result.ok () { s with trace_cache := c }) ?_
        exact LRUCache.modifyAt_congr hv hd rfl
    · rw [if_neg hc, hidle (if_neg fun h ↦ hc h.2)]
      rfl

/-- The attempt to translate links the trace at most. -/
theorem tryTranslate_run (opts : Options) (hv : s.trace_cache.Valid)
    (hd : s.trace_cache.deref addr = some trace) : ∃ c trace',
      (tryTranslate opts addr).run s = .ok () { s with trace_cache := c } ∧ c.deref addr = some trace' ∧
      Links opts.jit s.mmu.isVirtualAddressing s.trace_cache c :=
  ⟨_, _, tryTranslate_eq opts hv hd, LRUCache.deref_modifyAt hd _,
    .modifyAt hv hd (attempted_linked opts _ trace)⟩

end Trace

namespace Native

variable {R : State → State → Prop} (h : StableData R)

include h

theorem store_stable (hi : ∀ s n, R s { s with executed_insts := n }) {layout : Layout} {addr : U64}
    {w : ℕ} {v : BitVec w} {s s' : State} (hs : store layout addr v s = .ok s') : R s s' := by
  unfold store at hs
  split at hs
  · split at hs
    · cases hs
      exact h.regs s _
    · cases hs
  · split at hs
    · cases hs
      exact h.pc s _
    · cases hs
  · cases hs
    exact hi s _
  · split at hs
    · cases hs
      exact h.mmu s _ ⟨⟨rfl, rfl⟩, rfl⟩
    · cases hs
  · cases hs
  · cases hs

theorem call_stable (clobber : Clobber) (f : Callee) (regs : X86.Gp → U64) :
    Results.Keeps R (call clobber f regs) := by
  intro s
  change R s (final (call clobber f regs s))
  cases f with
  | read T =>
    have hread := h.read T.bytes ((regs .rdi).setWidth 32) s
    unfold call
    dsimp only
    cases hr : (State.read T.bytes ((regs .rdi).setWidth 32)).run s with
    | ok v s' =>
      rw [hr] at hread
      exact hread
    | error e s' =>
      rw [hr] at hread
      exact hread
  | write T =>
    have hwrite := h.write (n := T.bytes) ((regs .rdi).setWidth 32) ((regs .rsi).setWidth _) s
    unfold call
    dsimp only
    cases hr : (State.write (n := T.bytes) ((regs .rdi).setWidth 32) ((regs .rsi).setWidth _)).run s with
    | ok v s' =>
      rw [hr] at hwrite
      exact hwrite
    | error e s' =>
      rw [hr] at hwrite
      exact hwrite

theorem run_stable (hi : ∀ s n, R s { s with executed_insts := n }) (layout : Layout) (clobber : Clobber)
    (code rest : NativeCode) (fuel : ℕ) :
    Results.Keeps (fun m m' : X86.Machine State ↦ R m.world m'.world)
      (X86.run (env layout clobber) .outOfFuel code fuel rest) := by
  have := h.refl
  have := h.trans
  exact X86.run_world (R := R) (fun _ _ _ _ _ hs ↦ store_stable h hi hs) (call_stable h clobber) code fuel rest

end Native

/-- Native code reaches the rest of the simulator neither by its stores nor by its calls. -/
theorem Trace.native_keeps {R : State → State → Prop} (h : StableData R)
    (hi : ∀ s n, R s { s with executed_insts := n }) (host : Host) (code : NativeCode) :
    Keeps R (native host code) := by
  intro s
  have hrun := Native.run_stable h hi host.layout host.clobber code code host.fuel
    (Native.start host.layout (host.regs s) s)
  change R s (final (native host code s))
  unfold native
  cases hr : (X86.run (Native.env host.layout host.clobber) .outOfFuel code host.fuel code).run
    (Native.start host.layout (host.regs s) s) with
  | ok u m =>
    rw [hr] at hrun
    exact hrun
  | error e m =>
    rw [hr] at hrun
    exact hrun

theorem Trace.native_cache (host : Host) (code : NativeCode) :
    Keeps (fun s s' : State ↦ s'.trace_cache = s.trace_cache) (native host code) :=
  native_keeps stable_cache.data (fun _ _ ↦ rfl) host code

namespace Sim

variable {opts : Options} {host : Host} {Q : List Inst → Prop} {s s' : State}

/-- The round from `s` comes to the trace at `addr` and begins it in `s₁`. -/
structure Begins (opts : Options) (host : Host) (s : State) (addr : ℕ) (trace : Trace) (s₁ : State) :
    Prop where
  run : (do
    let addr ← TraceCache.refer host
    Trace.tryTranslate opts addr
    return addr : Run ℕ).run s = .ok addr s₁
  alive : s₁.trace_cache.deref addr = some trace

namespace Begins

variable {addr : ℕ} {trace : Trace} {s₁ : State}

theorem split (h : Begins opts host s addr trace s₁) : ∃ s₀,
    (TraceCache.refer host).run s = .ok addr s₀ ∧ (Trace.tryTranslate opts addr).run s₀ = .ok () s₁ := by
  obtain ⟨a, s₀, hr, h₁⟩ := run_bind_eq_ok.mp h.run
  obtain ⟨u, s₂, ht, h₂⟩ := run_bind_eq_ok.mp h₁
  cases h₂
  exact ⟨s₀, hr, ht⟩

theorem interpreted (h : Begins opts host s addr trace s₁) (hi : trace.exec_trace_ = none) :
    (iteration opts host).run s = (do
      let _ ← execFrom 0 trace.trace_
      let size ← Trace.size host addr
      modify fun s ↦ { s with executed_insts := s.executed_insts + size } : Run Unit).run s₁ := by
  obtain ⟨s₀, hr, ht⟩ := h.split
  rw [iteration, run_bind_of_ok hr, Trace.execute, run_bind_of_ok ht,
    run_bind_of_ok (Trace.at_run h.alive), hi]

/-- What an interpreted round that went through has done. -/
theorem interpreted_ok (h : Begins opts host s addr trace s₁) (hi : trace.exec_trace_ = none)
    (hrun : (iteration opts host).run s = .ok () s') : ∃ visited t size,
      (execFrom 0 trace.trace_).run s₁ = .ok visited t ∧ (Trace.size host addr).run t = .ok size t ∧
      s' = { t with executed_insts := t.executed_insts + size } := by
  rw [h.interpreted hi] at hrun
  obtain ⟨visited, t, hx, h₂⟩ := run_bind_eq_ok.mp hrun
  obtain ⟨size, hsize⟩ := TraceCache.size_run host addr t
  rw [run_bind_of_ok hsize] at h₂
  cases h₂
  exact ⟨visited, t, size, hx, hsize, rfl⟩

theorem native (h : Begins opts host s addr trace s₁) {code : NativeCode}
    (hc : trace.exec_trace_ = some code) :
    (iteration opts host).run s = (Trace.native host code).run s₁ := by
  obtain ⟨s₀, hr, ht⟩ := h.split
  rw [iteration, run_bind_of_ok hr, Trace.execute, run_bind_of_ok ht,
    run_bind_of_ok (Trace.at_run h.alive), hc]

/-- What instructions and native code keep, the rest of the round keeps. -/
theorem keeps (h : Begins opts host s addr trace s₁) {R : State → State → Prop} (hR : StableData R)
    (hi : ∀ s n, R s { s with executed_insts := n })
    (hx : ∀ (func : ExecFunc) inst offset, Keeps R (func.exec inst offset))
    (hrun : (iteration opts host).run s = .ok () s') : R s₁ s' := by
  cases hc : trace.exec_trace_ with
  | some code =>
    rw [h.native hc] at hrun
    exact (Trace.native_keeps hR hi host code).of_ok hrun
  | none =>
    obtain ⟨visited, s₂, size, hexec, -, rfl⟩ := h.interpreted_ok hc hrun
    exact hR.trans.trans _ _ _ ((execFrom_keeps hR hx 0 trace.trace_).of_ok hexec) (hi s₂ _)

theorem unique (h : Begins opts host s addr trace s₁) {addr' : ℕ} {trace' : Trace} {s₁' : State}
    (h' : Begins opts host s addr' trace' s₁') : addr' = addr ∧ trace' = trace ∧ s₁' = s₁ := by
  have hrun := h.run.symm.trans h'.run
  cases hrun
  have halive := h.alive.symm.trans h'.alive
  cases halive
  exact ⟨rfl, rfl, rfl⟩

end Begins

/-- What the constructor fetches at `pc`, whatever the cache, meets `Q`. -/
def Fetches (host : Host) (Q : List Inst → Prop) (s : State) : Prop :=
  ∀ c insts t, (Trace.fetchFrom host.fuel s.pc).run { s with trace_cache := c } = .ok insts t → Q insts

theorem fetches_isTrace (host : Host) (s : State) : Fetches host IsTrace s :=
  fun _ _ _ h ↦ (Trace.fetchFrom_isTrace h).1

variable (h : Sound opts.jit Q s) (hQ : Fetches host Q s)

include h hQ

/-- A round fails to fetch its trace, or begins one. -/
theorem begins_or_error :
    (∃ e t, (TraceCache.refer host).run s = .error e t ∧ (iteration opts host).run s = .error e t) ∨
      ∃ addr trace s₁, Begins opts host s addr trace s₁ := by
  cases hr : (TraceCache.refer host).run s with
  | error e t => exact .inl ⟨e, t, rfl, by rw [iteration, run_bind_of_error hr]⟩
  | ok addr s₀ =>
    obtain ⟨h₀, trace, hd⟩ := TraceCache.refer_sound h hQ hr
    obtain ⟨c, trace', ht, hd', -⟩ := Trace.tryTranslate_run opts h₀.valid hd
    refine .inr ⟨addr, trace', { s₀ with trace_cache := c }, ?_, hd'⟩
    rw [run_bind_of_ok hr, run_bind_of_ok ht]
    rfl

theorem Begins.sound {addr : ℕ} {trace : Trace} {s₁ : State} (hb : Begins opts host s addr trace s₁) :
    Sound opts.jit Q s₁ ∧ trace.Fit opts.jit Q ∧ Trace.Fetched s s₁ := by
  obtain ⟨s₀, hr, ht⟩ := hb.split
  obtain ⟨h₀, trace₀, hd⟩ := TraceCache.refer_sound h hQ hr
  obtain ⟨c, trace', ht', hd', hl⟩ := Trace.tryTranslate_run opts h₀.valid hd
  rw [ht'] at ht
  cases ht
  have hfetched := IsTrans.trans _ _ _ (TraceCache.refer_keeps.of_ok hr) (Trace.fetched_cache c s₀)
  have h₁ := h₀.links hl
  exact ⟨h₁, h₁.deref hb.alive, hfetched⟩

theorem iteration_sound (htrace : ∀ insts, Q insts → IsTrace insts)
    (hrun : (iteration opts host).run s = .ok () s') : Sound opts.jit Q s' := by
  rcases begins_or_error h hQ with ⟨e, t, -, he⟩ | ⟨addr, trace, s₁, hb⟩
  · rw [he] at hrun
    cases hrun
  obtain ⟨h₁, hfit, -⟩ := hb.sound h hQ
  cases hc : trace.exec_trace_ with
  | some code =>
    rw [hb.native hc] at hrun
    exact h₁.of_cache ((Trace.native_cache host code).of_ok hrun)
  | none =>
    obtain ⟨visited, s₂, size, hx, -, rfl⟩ := hb.interpreted_ok hc hrun
    rcases execFrom_cache (htrace _ hfit.insts) hx with ⟨-, hcache⟩ | ⟨-, hcache⟩
    · have h₂ := h₁.of_cache hcache
      exact h₂.of_cache rfl
    · have h₂ : Sound opts.jit Q s₂ := .clear hcache
      exact h₂.of_cache rfl

omit h hQ

/-- The loop leaves after this round. -/
def LimitReached (opts : Options) (s : State) : Prop :=
  opts.max_insts ≠ 0 ∧ opts.max_insts ≤ s.executed_insts

/-- `n` rounds of the loop, none of which reached the limit. -/
inductive Rounds (opts : Options) (host : Host) (s : State) : ℕ → State → Prop
  | zero : Rounds opts host s 0 s
  | next {n : ℕ} {t u : State} : Rounds opts host s n t → (iteration opts host).run t = .ok () u →
      ¬ LimitReached opts u → Rounds opts host s (n + 1) u

namespace Rounds

variable {n : ℕ} {t : State}

/-- What every round keeps holds after any number of them. -/
theorem invariant {I : State → Prop} (hr : Rounds opts host s n t) (h₀ : I s)
    (hI : ∀ u u', I u → (iteration opts host).run u = .ok () u' → I u') : I t := by
  induction hr with
  | zero => exact h₀
  | next _ hrun _ ih => exact hI _ _ ih hrun

theorem execute (hr : Rounds opts host s n t) (fuel : ℕ) :
    (Sim.execute opts host (fuel + n)).run s = (Sim.execute opts host fuel).run t := by
  induction hr generalizing fuel with
  | zero => rfl
  | @next n t u _ hrun hlim ih =>
    rw [Nat.add_comm n 1, ← Nat.add_assoc, ih (fuel + 1), Sim.execute, run_bind_of_ok hrun,
      run_bind_of_ok (EStateM.run_get u),
      if_neg (show ¬ (opts.max_insts ≠ 0 ∧ opts.max_insts ≤ u.executed_insts) from hlim)]

theorem execute_error (hr : Rounds opts host s n t) {e : Stop} {u : State}
    (hrun : (iteration opts host).run t = .error e u) (fuel : ℕ) :
    (Sim.execute opts host (fuel + 1 + n)).run s = .error e u := by
  rw [hr.execute, Sim.execute, run_bind_of_error hrun]

theorem execute_limit (hr : Rounds opts host s n t) {u : State}
    (hrun : (iteration opts host).run t = .ok () u) (hlim : LimitReached opts u) (fuel : ℕ) :
    (Sim.execute opts host (fuel + 1 + n)).run s = .ok () u := by
  rw [hr.execute, Sim.execute, run_bind_of_ok hrun, run_bind_of_ok (EStateM.run_get u),
    if_pos (show opts.max_insts ≠ 0 ∧ opts.max_insts ≤ u.executed_insts from hlim)]
  rfl

theorem sound (hr : Rounds opts host s n t) {cap : ℕ} (hc : s.trace_cache = .new cap) :
    Sound opts.jit IsTrace t :=
  hr.invariant (.new cap hc) fun u _ hu ↦
    iteration_sound hu (fetches_isTrace host u) fun _ ht ↦ ht

end Rounds

end Sim

end RiscvSim
