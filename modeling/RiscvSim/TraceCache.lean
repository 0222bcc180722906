import RiscvSim.Frames
import RiscvSim.Library.Simulation

namespace RiscvSim

open Isa Ir State Results Simulation

namespace State

/-- The same machine: the states differ in the trace cache and the instruction count alone. -/
structure SameMachine (s t : State) : Prop where
  regs : s.regs = t.regs
  pc : s.pc = t.pc
  mmu : s.mmu = t.mmu
  world : s.world = t.world

theorem SameMachine.trans {s t u : State} (h : SameMachine s t) (h' : SameMachine t u) :
    SameMachine s u :=
  ⟨h.regs.trans h'.regs, h.pc.trans h'.pc, h.mmu.trans h'.mmu, h.world.trans h'.world⟩

theorem SameMachine.symm {s t : State} (h : SameMachine s t) : SameMachine t s :=
  ⟨h.regs.symm, h.pc.symm, h.mmu.symm, h.world.symm⟩

def withCache (c : LRUCache U32 Trace × U64) (s : State) : State :=
  { s with trace_cache := c.1, executed_insts := c.2 }

theorem SameMachine.eq_withCache {s t : State} (h : SameMachine s t) :
    t = s.withCache (t.trace_cache, t.executed_insts) := by
  cases s
  cases t
  obtain ⟨rfl, rfl, rfl, rfl⟩ := h
  rfl

theorem sameMachine_withCache (c : LRUCache U32 Trace × U64) (s : State) :
    SameMachine s (s.withCache c) := ⟨rfl, rfl, rfl, rfl⟩

end State

theorem aside_withCache : Aside withCache where
  regs _ _ := rfl
  mmu _ _ := rfl
  world _ _ := rfl
  setRegs _ _ _ := rfl
  setMmu _ _ _ := rfl
  setWorld _ _ _ := rfl

/-- No instruction reads the cache or the instruction count. -/
theorem Isa.ExecFunc.exec_alike {s t : State} (h : SameMachine s t) (func : ExecFunc) (inst : Inst)
    (offset : U32) : Alike Eq SameMachine SameMachine ((func.exec inst offset).run s)
      ((func.exec inst offset).run t) := by
  rw [h.eq_withCache]
  cases hf : func.usesPC with
  | false =>
    rw [exec_ignores aside_withCache hf]
    cases (func.exec inst offset).run s with
    | ok flow s' => exact .ok rfl (sameMachine_withCache _ _)
    | error e s' => exact .error (sameMachine_withCache _ _)
  | true => cases func <;> first | exact .ok rfl ⟨rfl, rfl, rfl, rfl⟩ | cases hf

theorem execFrom_alike {s t : State} (h : SameMachine s t) (k : ℕ) (insts : List Inst) :
    Alike Eq SameMachine SameMachine ((execFrom k insts).run s) ((execFrom k insts).run t) := by
  induction insts generalizing k s t with
  | nil => exact .error h
  | cons inst rest ih =>
    refine (ExecFunc.exec_alike h inst.func_ inst _).bind fun flow _ s' t' hflow h' ↦ ?_
    subst hflow
    cases flow with
    | endTrace => exact .ok rfl h'
    | nextInst =>
      refine (ih h' (k + 1)).bind fun _ _ s'' t'' hl h'' ↦ ?_
      subst hl
      exact .ok rfl h''

/-- The machine without a cache: every iteration fetches its trace afresh. -/
def Uncached.iteration (host : Host) : Run Unit := do
  let trace ← Trace.new host
  let _ ← execFrom 0 trace.trace_
  modify fun s ↦
    { s with executed_insts := s.executed_insts + BitVec.ofNat 64 trace.trace_.length }

/-- The addresses of the words a trace of `n` instructions at `va` is fetched from. -/
def wordsOf (va : U32) (n : ℕ) : Set U32 := {w | ∃ j < n, w = va + BitVec.ofNat 32 (4 * j)}

/-- The words fetched since the last FENCE, after a trace at `pc` has run. -/
def fetchedAfter (words : Set U32) (pc : U32) (insts : List Inst) : Set U32 :=
  {w | ¬ EndsInFence insts ∧ w ∈ words ∪ wordsOf pc insts.length}

/-- The bytes of these words are the same. -/
def MMU.SameBytes (words : Set U32) (m m' : MMU) : Prop :=
  ∀ w ∈ words, ∀ b, w.toNat ≤ b → b < w.toNat + 4 → m'.pmem_ b = m.pmem_ b

/-- In the next `n` iterations addressing stays physical and no word changes that was fetched
since the last FENCE. -/
def Quiet (host : Host) : ℕ → Set U32 → State → Prop
  | 0, _, s => s.mmu.isVirtualAddressing = false
  | n + 1, words, s => s.mmu.isVirtualAddressing = false ∧ ∀ trace s₀ s',
      (Trace.new host).run s = .ok trace s₀ → (Uncached.iteration host).run s = .ok () s' →
        MMU.SameBytes (fetchedAfter words s.pc trace.trace_) s.mmu s'.mmu ∧
          Quiet host n (fetchedAfter words s.pc trace.trace_) s'

theorem Quiet.bare {host : Host} {n : ℕ} {words : Set U32} {s : State} (h : Quiet host n words s) :
    s.mmu.isVirtualAddressing = false := by
  cases n with
  | zero => exact h
  | succ n => exact h.1

namespace TraceCache

def UpToDate (host : Host) (s : State) (key : U32) (trace : Trace) : Prop :=
  (Trace.new host).run { s with pc := key } = .ok trace { s with pc := key }

/-- The cache works, and its traces are up to date and made of the fetched words. -/
structure Coherent (host : Host) (words : Set U32) (s : State) : Prop where
  valid : s.trace_cache.Valid
  roomy : ¬ s.trace_cache.Stuck
  pos : 1 ≤ s.trace_cache.max_size_
  fresh : ∀ key trace, s.trace_cache.Maps key trace →
    UpToDate host s key trace ∧ wordsOf key trace.trace_.length ⊆ words

theorem Coherent.new {host : Host} {s : State} {cap : ℕ} (hcap : 1 ≤ cap)
    (h : s.trace_cache = .new cap) : Coherent host ∅ s := by
  refine ⟨?_, ?_, ?_, fun key trace hm ↦ ?_⟩
  · rw [h]
    exact LRUCache.new_valid cap
  · rw [h]
    intro hs
    have h0 : 0 = cap := hs.2
    omega
  · rw [h]
    exact hcap
  · rw [h] at hm
    obtain ⟨e, he, -⟩ := hm
    cases he

theorem upToDate_iff {host : Host} {s : State} (hv : s.mmu.isVirtualAddressing = false) {key : U32}
    {trace : Trace} : UpToDate host s key trace ↔
      ∃ insts, s.mmu.buildFrom host.fuel key = .ok insts ∧ trace = { trace_ := insts } := by
  rw [UpToDate, new_bare (s := { s with pc := key }) hv]
  cases s.mmu.buildFrom host.fuel key with
  | error e => simp
  | ok insts => simp [eq_comm]

theorem sameWords_of_sameBytes {words : Set U32} {m m' : MMU} (h : MMU.SameBytes words m m')
    {va : U32} {n : ℕ} (hw : wordsOf va n ⊆ words) : MMU.SameWords m m' va n :=
  fun j hj ↦ h _ (hw ⟨j, hj, rfl⟩)

theorem UpToDate.congr {host : Host} {s s' : State} {key : U32} {trace : Trace} {words : Set U32}
    (h : UpToDate host s key trace) (hv : s.mmu.isVirtualAddressing = false)
    (hv' : s'.mmu.isVirtualAddressing = false) (hs : s'.mmu.pmem_size_ = s.mmu.pmem_size_)
    (hw : wordsOf key trace.trace_.length ⊆ words) (hb : MMU.SameBytes words s.mmu s'.mmu) :
    UpToDate host s' key trace := by
  obtain ⟨insts, hi, rfl⟩ := (upToDate_iff hv).mp h
  obtain ⟨ht, hc⟩ := MMU.buildFrom_ok hi
  have hc' := hc.congr hs (sameWords_of_sameBytes hb hw)
  exact (upToDate_iff hv').mpr
    ⟨insts, MMU.buildFrom_of_codeAt ht hc' (MMU.buildFrom_length hi), rfl⟩

variable {host : Host} {words : Set U32} {s : State}

/-- The cache after a reference: the trace is in it, and nothing else is new. -/
structure Referred (s : State) (c : LRUCache U32 Trace) (addr : ℕ) (trace : Trace) : Prop where
  deref : c.deref addr = some trace
  valid : c.Valid
  nonempty : c.entries_ ≠ []
  max : c.max_size_ = s.trace_cache.max_size_
  maps : ∀ k v, c.Maps k v → (k = s.pc ∧ v = trace) ∨ s.trace_cache.Maps k v

variable (host) in
theorem refer_cases (hvalid : s.trace_cache.Valid) (hroomy : ¬ s.trace_cache.Stuck)
    (hv : s.mmu.isVirtualAddressing = false) :
    (∃ addr c trace, s.trace_cache.Maps s.pc trace ∧ Referred s c addr trace ∧
      (refer host).run s = .ok addr { s with trace_cache := c }) ∨
    (∃ addr c insts, s.mmu.buildFrom host.fuel s.pc = .ok insts ∧
      Referred s c addr { trace_ := insts } ∧
      (refer host).run s = .ok addr { s with trace_cache := c }) ∨
    ∃ e c, s.mmu.buildFrom host.fuel s.pc = .error e ∧
      (refer host).run s = .error e { s with trace_cache := c } := by
  have hpc : getPC.run s = .ok s.pc s := rfl
  rw [refer, run_bind_of_ok hpc]
  cases hl : s.trace_cache.links_ s.pc with
  | some addr =>
    obtain ⟨c, v, hrun, hc, hm, hd, he, hmax⟩ := LRUCache.insert_hit cache hvalid hl (Trace.new host)
    refine .inl ⟨addr, c, v, hm, ⟨hd, hc, ?_, hmax, ?_⟩, ?_⟩
    · intro hnil
      rw [LRUCache.deref, hnil] at hd
      cases hd
    · rintro k v ⟨e, hec, hk, hev⟩
      exact .inr ⟨e, (he e).mp hec, hk, hev⟩
    · rw [run_bind_of_ok hrun]
      rfl
  | none =>
    obtain ⟨c, hc, hlen, hsub, hmax, hrun⟩ := LRUCache.insert_miss cache hvalid hroomy hl
      (Trace.new host)
    have hnew := new_bare (s := cache.set c s) hv host
    cases hb : s.mmu.buildFrom host.fuel s.pc with
    | error e =>
      rw [show (cache.set c s).mmu.buildFrom host.fuel (cache.set c s).pc = _ from hb] at hnew
      rw [hnew] at hrun
      exact .inr (.inr ⟨e, c, rfl, by rw [run_bind_of_error hrun]; rfl⟩)
    | ok insts =>
      rw [show (cache.set c s).mmu.buildFrom host.fuel (cache.set c s).pc = _ from hb] at hnew
      rw [hnew] at hrun
      refine .inr (.inl ⟨c.fresh, c.emplaceFront s.pc { trace_ := insts }, insts, rfl,
        ⟨LRUCache.deref_emplaceFront _ _ _, ?_, List.cons_ne_nil _ _, hmax, ?_⟩, ?_⟩)
      · refine LRUCache.emplaceFront_valid hc hlen (fun e he ↦ ?_) _
        exact (LRUCache.links_eq_none hvalid).mp hl e (hsub e he)
      · intro k v hkv
        refine (LRUCache.maps_emplaceFront.mp hkv).imp_right ?_
        rintro ⟨e, he, hk, hev⟩
        exact ⟨e, hsub e he, hk, hev⟩
      · rw [run_bind_of_ok hrun]
        rfl

theorem refer_ok (h : Coherent host words s) (hv : s.mmu.isVirtualAddressing = false) {insts : List Inst}
    (hb : s.mmu.buildFrom host.fuel s.pc = .ok insts) : ∃ addr c,
      (refer host).run s = .ok addr { s with trace_cache := c } ∧
      c.deref addr = some { trace_ := insts } ∧ c.Valid ∧ c.entries_ ≠ [] ∧
      c.max_size_ = s.trace_cache.max_size_ ∧
      ∀ k v, c.Maps k v → (k = s.pc ∧ v = { trace_ := insts }) ∨ s.trace_cache.Maps k v := by
  rcases refer_cases host h.valid h.roomy hv with ⟨addr, c, trace, hm, hr, hrun⟩ |
    ⟨addr, c, insts', hb', hr, hrun⟩ | ⟨e, c, hb', -⟩
  · obtain ⟨insts', hi, rfl⟩ := (upToDate_iff hv).mp (h.fresh _ _ hm).1
    obtain rfl : insts = insts' := Except.ok.inj (hb.symm.trans hi)
    exact ⟨addr, c, hrun, hr.deref, hr.valid, hr.nonempty, hr.max, hr.maps⟩
  · obtain rfl : insts = insts' := Except.ok.inj (hb.symm.trans hb')
    exact ⟨addr, c, hrun, hr.deref, hr.valid, hr.nonempty, hr.max, hr.maps⟩
  · rw [hb] at hb'
    cases hb'

theorem refer_error (h : Coherent host words s) (hv : s.mmu.isVirtualAddressing = false) {e : Stop}
    (hb : s.mmu.buildFrom host.fuel s.pc = .error e) :
    ∃ c, (refer host).run s = .error e { s with trace_cache := c } := by
  rcases refer_cases host h.valid h.roomy hv with ⟨addr, c, trace, hm, -⟩ |
    ⟨addr, c, insts, hb', -⟩ | ⟨e', c, hb', hrun⟩
  · obtain ⟨insts, hi, -⟩ := (upToDate_iff hv).mp (h.fresh _ _ hm).1
    rw [hb] at hi
    cases hi
  · rw [hb] at hb'
    cases hb'
  · obtain rfl : e = e' := Except.error.inj (hb.symm.trans hb')
    exact ⟨c, hrun⟩

theorem Coherent.next (h : Coherent host words s) (hv : s.mmu.isVirtualAddressing = false)
    {insts : List Inst} (hb : s.mmu.buildFrom host.fuel s.pc = .ok insts) {c : LRUCache U32 Trace}
    (hc : c.Valid) (hne : c.entries_ ≠ []) (hmax : c.max_size_ = s.trace_cache.max_size_)
    (hmaps : ∀ k v, c.Maps k v → (k = s.pc ∧ v = { trace_ := insts }) ∨ s.trace_cache.Maps k v)
    {s' : State} {visited : List ℕ}
    (hrun : (execFrom 0 insts).run { s with trace_cache := c } = .ok visited s')
    (hv' : s'.mmu.isVirtualAddressing = false)
    (hq : MMU.SameBytes (fetchedAfter words s.pc insts) s.mmu s'.mmu) :
    Coherent host (fetchedAfter words s.pc insts) s' := by
  have hsize : s'.mmu.pmem_size_ = s.mmu.pmem_size_ := by
    exact (execFrom_keeps_size 0 insts).of_ok (s := { s with trace_cache := c }) hrun
  have hpos : 1 ≤ c.max_size_ := by
    rw [hmax]
    exact h.pos
  rcases execFrom_cache (MMU.buildFrom_ok hb).1 hrun with ⟨hf, hcache⟩ | ⟨hf, hcache⟩
  · have hwords : fetchedAfter words s.pc insts = words ∪ wordsOf s.pc insts.length :=
      Set.ext fun w ↦ and_iff_right hf
    rw [hwords] at hq ⊢
    constructor
    · rw [hcache]
      exact hc
    · rw [hcache]
      exact fun hs ↦ hne hs.1
    · rw [hcache]
      exact hpos
    · intro key trace hm
      rw [hcache] at hm
      rcases hmaps key trace hm with ⟨rfl, rfl⟩ | hm
      · have hsub : wordsOf s.pc insts.length ⊆ words ∪ wordsOf s.pc insts.length :=
          Set.subset_union_right
        exact ⟨((upToDate_iff hv).mpr ⟨insts, hb, rfl⟩).congr hv hv' hsize hsub hq, hsub⟩
      · obtain ⟨hu, hw⟩ := h.fresh key trace hm
        have hsub := hw.trans (Set.subset_union_left (t := wordsOf s.pc insts.length))
        exact ⟨hu.congr hv hv' hsize hsub hq, hsub⟩
  · constructor
    · rw [hcache]
      exact c.clear_valid
    · rw [hcache]
      intro hs
      have h0 : 0 = c.max_size_ := hs.2
      omega
    · rw [hcache]
      exact hpos
    · intro key trace hm
      rw [hcache] at hm
      exact absurd hm (c.not_maps_clear key trace)

theorem size_run (host : Host) (addr : ℕ) (s : State) : ∃ n, (Trace.size host addr).run s = .ok n s := by
  rw [Trace.size, run_bind_of_ok (EStateM.run_get s)]
  cases s.trace_cache.deref addr with
  | some trace => exact ⟨_, rfl⟩
  | none => exact ⟨_, rfl⟩

theorem iteration_alike {opts : Options} (hjit : opts.jit = false) {t : State} {n : ℕ}
    (h : Coherent host words s) (hst : SameMachine s t) (hq : Quiet host (n + 1) words t) :
    Alike Eq (fun s' t' ↦ ∃ insts, t.mmu.buildFrom host.fuel t.pc = .ok insts ∧
        Coherent host (fetchedAfter words t.pc insts) s' ∧ SameMachine s' t' ∧
        Quiet host n (fetchedAfter words t.pc insts) t') SameMachine
      ((Sim.iteration opts host).run s) ((Uncached.iteration host).run t) := by
  have hvt : t.mmu.isVirtualAddressing = false := hq.1
  have hv : s.mmu.isVirtualAddressing = false := by rw [hst.mmu]; exact hvt
  have hnew := new_bare hvt host
  rw [← hst.mmu, ← hst.pc] at hnew
  cases hb : s.mmu.buildFrom host.fuel s.pc with
  | error e =>
    obtain ⟨c, hc⟩ := refer_error h hv hb
    rw [hb] at hnew
    rw [Sim.iteration, run_bind_of_error hc, Uncached.iteration, run_bind_of_error hnew]
    exact .error ⟨hst.regs, hst.pc, hst.mmu, hst.world⟩
  | ok insts =>
    obtain ⟨addr, c, hrefer, hd, hc, hne, hmax, hmaps⟩ := refer_ok h hv hb
    rw [hb] at hnew
    have hrun := execFrom_alike (s := { s with trace_cache := c }) (t := t)
      ⟨hst.regs, hst.pc, hst.mmu, hst.world⟩ 0 insts
    have hun : (Uncached.iteration host).run t = (do
        let _ ← execFrom 0 insts
        modify fun s ↦
          { s with executed_insts := s.executed_insts + BitVec.ofNat 64 insts.length } : Run Unit).run t := by
      rw [Uncached.iteration, run_bind_of_ok hnew]
    rw [Sim.iteration, run_bind_of_ok hrefer, Trace.execute_interpreted hjit hd rfl, hun]
    refine hrun.bind_of_runs fun _ _ s' t' hs' ht' _ hst' ↦ ?_
    obtain ⟨m, hm⟩ := size_run host addr s'
    rw [run_bind_of_ok ht'] at hun
    obtain ⟨hbytes, hq'⟩ := hq.2 _ _ _ hnew hun
    rw [← hst.mmu] at hbytes ⊢
    rw [← hst.pc] at hbytes hq' ⊢
    have hv' : s'.mmu.isVirtualAddressing = false := by
      rw [hst'.mmu]
      exact hq'.bare
    have hco := h.next hv hb hc hne hmax hmaps hs' hv' (by rw [hst'.mmu]; exact hbytes)
    rw [run_bind_of_ok hm]
    refine .ok rfl ⟨insts, hb, ⟨hco.valid, hco.roomy, hco.pos, fun k trace htr ↦ ?_⟩,
      ⟨hst'.regs, hst'.pc, hst'.mmu, hst'.world⟩, hq'⟩
    obtain ⟨hu, hw⟩ := hco.fresh k trace htr
    exact ⟨(upToDate_iff (s := { s' with executed_insts := s'.executed_insts + m }) hv').mpr
      ((upToDate_iff hv').mp hu), hw⟩

/-- However large the cache, each iteration ends as it does without one, and every cached trace
is the one the constructor would build. -/
theorem invisible {opts : Options} (hjit : opts.jit = false) (host : Host) (s : State) (n : ℕ)
    (hq : Quiet host n ∅ s) :
    (∀ cap, 1 ≤ cap → Alike Eq
      (fun s' t ↦ SameMachine s' t ∧
        ∀ key trace, s'.trace_cache.Maps key trace → UpToDate host s' key trace) SameMachine
      ((iterate (Sim.iteration opts host) n).run { s with trace_cache := .new cap })
      ((iterate (Uncached.iteration host) n).run s)) ∧
    ∀ cap cap', 1 ≤ cap → 1 ≤ cap' → Alike Eq SameMachine SameMachine
      ((iterate (Sim.iteration opts host) n).run { s with trace_cache := .new cap })
      ((iterate (Sim.iteration opts host) n).run { s with trace_cache := .new cap' }) := by
  have hrun : ∀ cap, 1 ≤ cap → Alike Eq
      (fun s' t ↦ SameMachine s' t ∧
        ∀ key trace, s'.trace_cache.Maps key trace → UpToDate host s' key trace) SameMachine
      ((iterate (Sim.iteration opts host) n).run { s with trace_cache := .new cap })
      ((iterate (Uncached.iteration host) n).run s) := by
    intro cap hcap
    have hco : Coherent host ∅ { s with trace_cache := .new cap } := .new hcap rfl
    have hall := iterate_alike (R := fun n s' t ↦ ∃ words, Coherent host words s' ∧
        SameMachine s' t ∧ Quiet host n words t)
      (fun n s' t ⟨words, h, hst, hq⟩ ↦ (iteration_alike hjit h hst hq).mono (fun _ _ h ↦ h)
        (fun _ _ ⟨insts, _, hnext⟩ ↦ ⟨_, hnext⟩) fun _ _ h ↦ h) n
      (t := s) ⟨∅, hco, ⟨rfl, rfl, rfl, rfl⟩, hq⟩
    refine hall.mono (fun _ _ h ↦ h) (fun s' t h ↦ ?_) fun _ _ h ↦ h
    obtain ⟨words, h, hst, -⟩ := h
    exact ⟨hst, fun key trace hm ↦ (h.fresh key trace hm).1⟩
  refine ⟨hrun, fun cap cap' hcap hcap' ↦ ?_⟩
  have h := hrun cap hcap
  have h' := hrun cap' hcap'
  refine h.compose h' (fun _ _ _ h₁ h₂ ↦ h₁.trans h₂.symm) (fun _ _ _ h₁ h₂ ↦ h₁.1.trans h₂.1.symm)
    fun _ _ _ h₁ h₂ ↦ h₁.trans h₂.symm

/-- A machine that stays in a text which its traces leave alone is quiet. -/
theorem quiet_of_invariant {I : State → Prop} {text : Set U32}
    (hv : ∀ s, I s → s.mmu.isVirtualAddressing = false)
    (hI : ∀ s s' insts, I s → s.mmu.buildFrom host.fuel s.pc = .ok insts →
      (Uncached.iteration host).run s = .ok () s' →
      wordsOf s.pc insts.length ⊆ text ∧ I s' ∧ MMU.SameBytes text s.mmu s'.mmu)
    (hwords : words ⊆ text) (n : ℕ) (h : I s) : Quiet host n words s := by
  induction n generalizing s words with
  | zero => exact hv s h
  | succ n ih =>
    refine ⟨hv s h, fun trace s₀ s' hnew hrun ↦ ?_⟩
    rw [new_bare (hv s h) host] at hnew
    cases hb : s.mmu.buildFrom host.fuel s.pc with
    | error e =>
      rw [hb] at hnew
      cases hnew
    | ok insts =>
      rw [hb] at hnew
      cases hnew
      obtain ⟨hline, h', hbytes⟩ := hI s s' insts h hb hrun
      have hfetched : fetchedAfter words s.pc insts ⊆ text :=
        fun w hw ↦ hw.2.elim (fun hold ↦ hwords hold) fun hnew ↦ hline hnew
      exact ⟨fun w hw ↦ hbytes w (hfetched hw), ih hfetched h'⟩

theorem execFrom_next {inst : Inst} {rest : List Inst} {k : ℕ} {visited : List ℕ} {t u : State}
    (hx : (inst.func_.exec inst (BitVec.ofNat 32 (4 * k))).run s = .ok .nextInst t)
    (hr : (execFrom (k + 1) rest).run t = .ok visited u) :
    (execFrom k (inst :: rest)).run s = .ok (k :: visited) u := by
  rw [execFrom, run_bind_of_ok hx]
  exact run_bind_eq_ok.mpr ⟨visited, u, hr, rfl⟩

/-- `addi x1, x1, 1`, `sw x1, 64(x0)` and a jump to the next word, and there the jump back. -/
def storeLoop : State :=
  let mem := Bytes.write (n := 4) (fun _ ↦ 0) 0 0x00108093#32
  let mem := Bytes.write (n := 4) mem 4 0x04102023#32
  let mem := Bytes.write (n := 4) mem 8 0x0040006f#32
  onePage (Bytes.write (n := 4) mem 12 0xff5ff06f#32) (.new 1)

namespace storeLoop

def pass : List Inst := [genI .ADDI 1 1 1, genS .SW 64 0 1, genJ .JAL 0 2]

def back : List Inst := [genJ .JAL 0 (-6)]

theorem fetches (va w : U32) (c : Command) (hsize : va.toNat + 4 < 4096)
    (hw : storeLoop.mmu.readMem 4 va.toNat = w) (h : Selects w c) :
    storeLoop.mmu.fetchInst va = .ok (readAs (formatOf c) c w) :=
  MMU.fetchInst_of_selects hsize hw h

theorem codeAt : storeLoop.mmu.CodeAt 0 (pass ++ back) := by
  have haddi := fetches 0 0x00108093#32 .ADDI (by decide) (by decide)
    ⟨rfl, rfl, fun _ _ ↦ rfl, nofun, trivial⟩
  have hsw := fetches 4 0x04102023#32 .SW (by decide) (by decide)
    ⟨rfl, rfl, fun _ _ ↦ rfl, nofun, trivial⟩
  have hjal := fetches 8 0x0040006f#32 .JAL (by decide) (by decide)
    ⟨rfl, rfl, nofun, nofun, trivial⟩
  have hback := fetches 12 0xff5ff06f#32 .JAL (by decide) (by decide)
    ⟨rfl, rfl, nofun, nofun, trivial⟩
  rw [show readAs _ _ _ = genI .ADDI 1 1 1 by decide] at haddi
  rw [show readAs _ _ _ = genS .SW 64 0 1 by decide] at hsw
  rw [show readAs _ _ _ = genJ .JAL 0 2 by decide] at hjal
  rw [show readAs _ _ _ = genJ .JAL 0 (-6) by decide] at hback
  exact ⟨haddi, hsw, hjal, hback, trivial⟩

def text : Set U32 := wordsOf 0 4

/-- The loop is in memory. -/
structure Loaded (s : State) : Prop where
  bare : s.mmu.isVirtualAddressing = false
  size : s.mmu.pmem_size_ = 4096
  bytes : MMU.SameBytes text storeLoop.mmu s.mmu

variable {s s' : State}

theorem Loaded.builds (h : Loaded s) : s.mmu.buildFrom 3 0 = .ok pass ∧ s.mmu.buildFrom 3 12 = .ok back := by
  have hcode : s.mmu.CodeAt 0 (pass ++ back) :=
    codeAt.congr h.size fun j hj ↦ h.bytes _ ⟨j, hj, rfl⟩
  have hpass : IsTrace pass := ⟨rfl, rfl, rfl⟩
  have hback : IsTrace back := rfl
  exact ⟨MMU.buildFrom_of_codeAt hpass ⟨hcode.1, hcode.2.1, hcode.2.2.1, trivial⟩ le_rfl,
    MMU.buildFrom_of_codeAt hback hcode.2.2.2 (by decide)⟩

theorem Loaded.store (h : Loaded s) (v : U32) (pc : U32) (regs : Regs) (n : U64) :
    Loaded { s with mmu := s.mmu.writeMem (n := 4) 64 v, pc := pc, regs := regs, executed_insts := n } := by
  refine ⟨h.bare, h.size, fun w hw b hl hu ↦ ?_⟩
  obtain ⟨j, hj, rfl⟩ := hw
  have hlt : (0 + BitVec.ofNat 32 (4 * j) : U32).toNat = 4 * j := by
    rw [show (0 : U32) + BitVec.ofNat 32 (4 * j) = _ from BitVec.zero_add _, BitVec.toNat_ofNat]
    omega
  refine (Bytes.write_of_lt _ _ (by omega)).trans (h.bytes _ ⟨j, hj, rfl⟩ b hl hu)

theorem Loaded.store_exec (h : Loaded s) {v : U32} (hv : s.regs.get 1 = v) :
    (ExecInst.store (genS .SW 64 0 1) 4).run s =
      .ok .nextInst { s with mmu := s.mmu.writeMem (n := 4) 64 v } := by
  have haddr : s.regs.get 0 + 64 = 64 := by
    rw [s.regs.get_zero]
    rfl
  have hin : (s.regs.get 0 + 64).toNat + 4 < s.mmu.pmem_size_ := by
    rw [haddr, h.size]
    decide
  have hrun := store_run (genS .SW 64 0 1) h.bare (n := 4) hin
  have hplace : (s.regs.get 0 + 64).toNat = 64 := congrArg BitVec.toNat haddr
  have hval : (s.regs.get 1).setWidth (8 * 4) = v := (BitVec.setWidth_eq _).trans hv
  dsimp only [genS, Inst.getRs1, Inst.getRs2, Inst.getImm] at hrun
  rwa [hplace, hval] at hrun

/-- What a pass does. -/
def passed (s : State) : State :=
  { s with
    regs := s.regs.set 1 (s.regs.get 1 + 1)
    mmu := s.mmu.writeMem (n := 4) 64 (s.regs.get 1 + 1)
    pc := 12
    executed_insts := s.executed_insts + 3 }

theorem Loaded.execute_pass (h : Loaded s) (hpc : s.pc = 0) :
    (Uncached.iteration (idleHost 3)).run s = .ok () (passed s) := by
  have hnew := new_bare h.bare (idleHost 3)
  rw [hpc, show s.mmu.buildFrom (idleHost 3).fuel 0 = _ from h.builds.1] at hnew
  let t : State := { s with regs := s.regs.set 1 (s.regs.get 1 + 1) }
  let u : State := { t with mmu := s.mmu.writeMem (n := 4) 64 (s.regs.get 1 + 1) }
  have hloaded : Loaded t := ⟨h.bare, h.size, h.bytes⟩
  have haddi : (ExecInst.execADDI (genI .ADDI 1 1 1)).run s = .ok .nextInst t := rfl
  have hsw : (ExecInst.execSW (genS .SW 64 0 1)).run t = .ok .nextInst u :=
    hloaded.store_exec (s.regs.get_set_self (show (1 : Reg) ≠ 0 by decide) _)
  have hjal : (execFrom 2 [genJ .JAL 0 2]).run u =
      .ok [2] { u with pc := s.pc + 8 + 2 * 2 } := rfl
  have hx : (execFrom 0 pass).run s = .ok [0, 1, 2] { u with pc := s.pc + 8 + 2 * 2 } :=
    execFrom_next haddi (execFrom_next hsw hjal)
  rw [Uncached.iteration, run_bind_of_ok hnew, run_bind_of_ok hx, hpc]
  rfl

theorem Loaded.execute_back (h : Loaded s) (hpc : s.pc = 12) : (Uncached.iteration (idleHost 3)).run s =
    .ok () { s with pc := 0, executed_insts := s.executed_insts + 1 } := by
  have hnew := new_bare h.bare (idleHost 3)
  rw [hpc, show s.mmu.buildFrom (idleHost 3).fuel 12 = _ from h.builds.2] at hnew
  have hx : (execFrom 0 back).run s = .ok [0] { s with pc := s.pc + 0 + -6 * 2 } := rfl
  rw [Uncached.iteration, run_bind_of_ok hnew, run_bind_of_ok hx, hpc]
  rfl

theorem loaded : Loaded storeLoop := ⟨by decide, rfl, fun _ _ _ _ _ ↦ rfl⟩

theorem quiet (n : ℕ) : Quiet (idleHost 3) n ∅ storeLoop := by
  refine quiet_of_invariant (I := fun s ↦ Loaded s ∧ (s.pc = 0 ∨ s.pc = 12))
    (fun s h ↦ h.1.bare) ?_ (Set.empty_subset text) n ⟨loaded, .inl rfl⟩
  rintro s s' insts ⟨h, hpc | hpc⟩ hb hrun
  · rw [hpc] at hb
    cases hb.symm.trans h.builds.1
    rw [h.execute_pass hpc] at hrun
    cases hrun
    have hnext : Loaded (passed s) := h.store _ _ _ _
    refine ⟨?_, ⟨hnext, .inr rfl⟩, fun w hw b hl hu ↦ ?_⟩
    · rw [hpc]
      rintro w ⟨j, hj, rfl⟩
      exact ⟨j, hj.trans (by decide), rfl⟩
    · exact (hnext.bytes w hw b hl hu).trans (h.bytes w hw b hl hu).symm
  · rw [hpc] at hb
    cases hb.symm.trans h.builds.2
    rw [h.execute_back hpc] at hrun
    cases hrun
    refine ⟨?_, ⟨⟨h.bare, h.size, h.bytes⟩, .inl rfl⟩, fun w _ b _ _ ↦ rfl⟩
    rw [hpc]
    rintro w ⟨j, hj, rfl⟩
    obtain rfl : j = 0 := Nat.lt_one_iff.mp hj
    exact ⟨3, by decide, rfl⟩

theorem round (h : Loaded s) (hpc : s.pc = 0) : ∃ t,
    (iterate (Uncached.iteration (idleHost 3)) 2).run s = .ok () t ∧ Loaded t ∧ t.pc = 0 ∧
    t.regs.get 1 = s.regs.get 1 + 1 := by
  have hnext : Loaded (passed s) := h.store _ _ _ _
  have hreg : (passed s).regs.get 1 = s.regs.get 1 + 1 :=
    s.regs.get_set_self (show (1 : Reg) ≠ 0 by decide) _
  refine ⟨{ passed s with pc := 0, executed_insts := (passed s).executed_insts + 1 }, ?_,
    ⟨hnext.bare, hnext.size, hnext.bytes⟩, rfl, hreg⟩
  rw [iterate, run_bind_of_ok (h.execute_pass hpc)]
  exact iterate_one.mpr (hnext.execute_back rfl)

theorem runs : ∃ t, (iterate (Uncached.iteration (idleHost 3)) 5).run storeLoop = .ok () t ∧
    t.mmu.readMem 4 64 = 3 := by
  obtain ⟨t, ht, hloaded, hpc, hreg⟩ := round loaded rfl
  obtain ⟨u, hu, hloaded', hpc', hreg'⟩ := round hloaded hpc
  have hlast : (iterate (Uncached.iteration (idleHost 3)) 1).run u = .ok () (passed u) :=
    iterate_one.mpr (hloaded'.execute_pass hpc')
  rw [← iterate_add hu, ← iterate_add ht] at hlast
  refine ⟨_, hlast, (Bytes.read_write_self _ _ _).trans ?_⟩
  rw [hreg', hreg]
  rfl

end storeLoop

theorem invisible_storeLoop : ∃ s₁ s₂ t : State,
    (iterate (Sim.iteration ⟨false, 100, 0⟩ (idleHost 3)) 5).run { storeLoop with trace_cache := .new 1 } =
      .ok () s₁ ∧
    (iterate (Sim.iteration ⟨false, 100, 0⟩ (idleHost 3)) 5).run { storeLoop with trace_cache := .new 2 } =
      .ok () s₂ ∧
    (iterate (Uncached.iteration (idleHost 3)) 5).run storeLoop = .ok () t ∧ SameMachine s₁ s₂ ∧
    SameMachine s₂ t ∧ t.mmu.readMem 4 64 = 3 ∧
    ∀ key trace, s₂.trace_cache.Maps key trace → UpToDate (idleHost 3) s₂ key trace := by
  obtain ⟨t, ht, hval⟩ := storeLoop.runs
  have hjit : (⟨false, 100, 0⟩ : Options).jit = false := rfl
  obtain ⟨hcached, hsizes⟩ := invisible hjit (idleHost 3) storeLoop 5 (storeLoop.quiet 5)
  have hbeside := hcached 2 (by decide)
  have hboth := hsizes 1 2 (by decide) (by decide)
  rw [ht] at hbeside
  generalize (iterate (Sim.iteration _ _) 5).run { storeLoop with trace_cache := .new 2 } = r at hbeside hboth
  cases hbeside with
  | ok _ h₂ =>
    generalize (iterate (Sim.iteration _ _) 5).run { storeLoop with trace_cache := .new 1 } = r' at hboth
    cases hboth with
    | ok _ h₁ => exact ⟨_, _, t, rfl, rfl, ht, h₁, h₂.1, hval, h₂.2⟩

end TraceCache

end RiscvSim
