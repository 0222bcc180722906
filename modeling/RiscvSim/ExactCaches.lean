import RiscvSim.CachedTraces
import RiscvSim.GuardedRuns
import RiscvSim.JitRuns

namespace RiscvSim

open Isa Ir State Results

namespace LRUCache

variable {σ κ α : Type}

/-- A cache with room for `n` elements whose counter is right. -/
structure Tight (n : ℕ) (c : LRUCache κ α) : Prop where
  valid : c.Valid
  size : c.entries_.length = c.cur_size_
  cap : c.max_size_ = n

namespace Tight

variable {n : ℕ} {c : LRUCache κ α}

theorem new (n : ℕ) : (LRUCache.new n : LRUCache κ α).Tight n := ⟨new_valid n, rfl, rfl⟩

theorem clear (h : c.Tight n) : c.clear.Tight n := ⟨clear_valid c, rfl, h.cap⟩

theorem modifyAt (h : c.Tight n) (addr : ℕ) (f : α → α) : (c.modifyAt addr f).Tight n := by
  refine ⟨modifyAt_valid h.valid addr f, ?_, h.cap⟩
  rw [LRUCache.modifyAt, List.length_map]
  exact h.size

theorem length_le (h : c.Tight n) : c.entries_.length ≤ n := by
  have hbound := h.valid.bound
  rw [h.cap] at hbound
  rw [h.size]
  exact hbound

variable [DecidableEq κ]

theorem makeRoom (h : c.Tight n) (hn : 1 ≤ n) : ∃ c', c.makeRoom = .ok c' ∧ c'.Valid ∧
    c'.entries_.length + 1 = c'.cur_size_ ∧ c'.max_size_ = n ∧ ∀ e ∈ c'.entries_, e ∈ c.entries_ := by
  have hstuck : ¬ c.Stuck := by
    rintro ⟨hnil, hfull⟩
    have hsize := h.size
    have hcap := h.cap
    rw [hnil, List.length_nil] at hsize
    omega
  obtain ⟨c', hc', hvalid, -, -, hsub, hmax⟩ := makeRoom_spec h.valid hstuck
  refine ⟨c', hc', hvalid, ?_, hmax.trans h.cap, hsub⟩
  have hsize := h.size
  rw [LRUCache.makeRoom] at hc'
  split at hc'
  · cases hc'
    exact congrArg (· + 1) hsize
  · next hfull =>
    have hcap := h.cap
    split at hc'
    · cases hc'
    · cases hc'
      rw [List.length_dropLast]
      dsimp only
      omega

theorem spliceFront (h : c.Tight n) {key : κ} {addr : ℕ} (hl : c.links_ key = some addr) :
    ∃ c', c.spliceFront key addr = .ok c' ∧ c'.Tight n := by
  obtain ⟨c', v, hc', hvalid, -, -, hmem, hcur, hmax, -⟩ := spliceFront_spec h.valid hl
  have hperm : c'.entries_.Perm c.entries_ :=
    (List.perm_ext_iff_of_nodup (List.Nodup.of_map _ hvalid.addrs) (List.Nodup.of_map _ h.valid.addrs)).mpr
      hmem
  refine ⟨c', hc', hvalid, ?_, hmax.trans h.cap⟩
  rw [hperm.length_eq, hcur]
  exact h.size

/-- A call of `insert` whose constructor returns keeps the counter right; it stops where the constructor
does, and nowhere else. -/
theorem insert_guards (cache : Member σ κ α) {I : σ → Prop} {E : Stop → Prop} {n : ℕ} (hn : 1 ≤ n)
    (hset : ∀ c s, I s → I (cache.set c s)) (key : κ) {make : EStateM Stop σ α} (hmake : Guards I E make)
    (hkeep : ∀ t v t', make.run t = .ok v t' → cache.get t' = cache.get t) :
    Guards (fun s ↦ I s ∧ (cache.get s).Tight n) E (insert cache key make) where
  ok s res s' hs hrun := by
    obtain ⟨hI, h⟩ := hs
    cases hl : (cache.get s).links_ key with
    | some addr =>
      obtain ⟨c, hc, ht⟩ := h.spliceFront hl
      rw [insert_of_link cache hl, hc] at hrun
      cases hrun
      refine ⟨hset c s hI, ?_⟩
      rw [cache.get_set]
      exact ht
    | none =>
      obtain ⟨c, hc, hvalid, hlen, hcap, hsub⟩ := h.makeRoom hn
      rw [insert_of_no_link cache hl, hc] at hrun
      dsimp only at hrun
      cases hm : make.run (cache.set c s) with
      | error e t =>
        rw [hm] at hrun
        cases hrun
      | ok v t =>
        rw [hm] at hrun
        cases hrun
        have ht := hkeep _ _ _ hm
        rw [cache.get_set] at ht
        refine ⟨hset _ t (hmake.ok _ _ _ (hset c s hI) hm), ?_⟩
        rw [cache.get_set, ht]
        refine ⟨emplaceFront_valid hvalid (by omega) (fun e he ↦ ?_) v, hlen, hcap⟩
        exact (links_eq_none h.valid).mp hl e (hsub e he)
  error s e s' hs hrun := by
    obtain ⟨hI, h⟩ := hs
    cases hl : (cache.get s).links_ key with
    | some addr =>
      obtain ⟨c, hc, -⟩ := h.spliceFront hl
      rw [insert_of_link cache hl, hc] at hrun
      cases hrun
    | none =>
      obtain ⟨c, hc, -⟩ := h.makeRoom hn
      rw [insert_of_no_link cache hl, hc] at hrun
      dsimp only at hrun
      cases hm : make.run (cache.set c s) with
      | error e' t =>
        rw [hm] at hrun
        cases hrun
        exact hmake.error _ _ _ (hset c s hI) hm
      | ok v t =>
        rw [hm] at hrun
        cases hrun

end Tight

end LRUCache

namespace MMU

/-- Both buffers have the capacity they were made with, and their counters are right. -/
structure Tight (icap dcap : ℕ) (m : MMU) : Prop where
  inst : m.instTLB_.Tight icap
  data : m.dataTLB_.Tight dcap

structure SameBuffers (m m' : MMU) : Prop where
  inst : m'.instTLB_ = m.instTLB_
  data : m'.dataTLB_ = m.dataTLB_

instance : Std.Refl SameBuffers := ⟨fun _ ↦ ⟨rfl, rfl⟩⟩

instance : IsTrans MMU SameBuffers := ⟨fun _ _ _ h h' ↦ ⟨h'.inst.trans h.inst, h'.data.trans h.data⟩⟩

section

variable {E : Stop → Prop} (hexc : ∀ e : Stop, e.IsException → E e)

include hexc

theorem translate_throws (va : U32) (acc : AccessType) : Throws E (translate va acc) := by
  refine .bind .get fun mmu ↦ .ite (.bind (.lift fun e he ↦ hexc e (walk_error he)) fun r ↦ ?_) (.pure _)
  exact .ite (.throw (hexc _ ⟨_, rfl⟩)) (.ite (.throw (hexc _ ⟨_, rfl⟩)) (.bind (.set _) fun _ ↦ .pure _))

variable {icap dcap : ℕ}

theorem translate_guards {I : MMU → Prop} (hI : ∀ m m', SameBuffers m m' → I m → I m') (va : U32)
    (acc : AccessType) : Guards I E (translate va acc) :=
  .of_keeps (translate_keeps (R := SameBuffers) (fun _ _ _ _ ↦ ⟨rfl, rfl⟩) va acc)
    (translate_throws hexc va acc) hI

omit hexc in
/-- The value behind the reference is there. -/
theorem physAddr_guards {tlb : LRUCache.Member MMU U32 PhysAddr} {va : U32} {acc : AccessType}
    (hins : Guards (Tight icap dcap) E (LRUCache.insert tlb va (translate va acc)))
    (hvalid : ∀ m : MMU, m.Tight icap dcap → (tlb.get m).Valid)
    (hkeep : ∀ m pa m', (translate va acc).run m = .ok pa m' → tlb.get m' = tlb.get m) :
    Guards (Tight icap dcap) E (physAddr tlb va acc) := by
  constructor
  · intro m pa m' hm h
    rw [physAddr, run_bind_of_ok (EStateM.run_get m)] at h
    split at h
    · obtain ⟨res, m₁, hr, h₁⟩ := run_bind_eq_ok.mp h
      have h₁' := hins.ok _ _ _ hm hr
      rw [run_bind_of_ok (EStateM.run_get m₁)] at h₁
      split at h₁
      · cases h₁
        exact h₁'
      · cases h₁
    · cases h
      exact hm
  · intro m e m' hm h
    rw [physAddr, run_bind_of_ok (EStateM.run_get m)] at h
    split at h
    · rcases run_bind_eq_error.mp h with he | ⟨res, m₁, hr, h₁⟩
      · exact hins.error _ _ _ hm he
      · obtain ⟨v, -, hd, -⟩ := LRUCache.insert_ok tlb (hvalid m hm) hkeep hr
        rw [run_bind_of_ok (EStateM.run_get m₁)] at h₁
        rw [hd] at h₁
        cases h₁
    · cases h

theorem inst_guards (hi : 1 ≤ icap) (va : U32) (acc : AccessType) :
    Guards (Tight icap dcap) E (physAddr instTLB va acc) := by
  have hkeep : ∀ m pa m', (translate va acc).run m = .ok pa m' → instTLB.get m' = instTLB.get m :=
    fun m pa m' h ↦ ((translate_keeps (R := SameBuffers) (fun _ _ _ _ ↦ ⟨rfl, rfl⟩) va acc).of_ok h).inst
  have hins := LRUCache.Tight.insert_guards (I := fun m : MMU ↦ m.dataTLB_.Tight dcap) instTLB hi
    (fun _ _ h ↦ h) va (translate_guards hexc (fun m m' h hd ↦ by rw [h.data]; exact hd) va acc) hkeep
  refine physAddr_guards ⟨fun m a m' hm h ↦ ?_, fun m e m' hm h ↦ ?_⟩ (fun m h ↦ h.inst.valid) hkeep
  · obtain ⟨hd, hi'⟩ := hins.ok m a m' ⟨hm.data, hm.inst⟩ h
    exact ⟨hi', hd⟩
  · exact hins.error m e m' ⟨hm.data, hm.inst⟩ h

theorem data_guards (hd : 1 ≤ dcap) (va : U32) (acc : AccessType) :
    Guards (Tight icap dcap) E (physAddr dataTLB va acc) := by
  have hkeep : ∀ m pa m', (translate va acc).run m = .ok pa m' → dataTLB.get m' = dataTLB.get m :=
    fun m pa m' h ↦ ((translate_keeps (R := SameBuffers) (fun _ _ _ _ ↦ ⟨rfl, rfl⟩) va acc).of_ok h).data
  have hins := LRUCache.Tight.insert_guards (I := fun m : MMU ↦ m.instTLB_.Tight icap) dataTLB hd
    (fun _ _ h ↦ h) va (translate_guards hexc (fun m m' h hi ↦ by rw [h.inst]; exact hi) va acc) hkeep
  refine physAddr_guards ⟨fun m a m' hm h ↦ ?_, fun m e m' hm h ↦ ?_⟩ (fun m h ↦ h.data.valid) hkeep
  · obtain ⟨hi, hd'⟩ := hins.ok m a m' ⟨hm.inst, hm.data⟩ h
    exact ⟨hi, hd'⟩
  · exact hins.error m e m' ⟨hm.inst, hm.data⟩ h

variable (hi : 1 ≤ icap) (hd : 1 ≤ dcap)

include hi hd

theorem load_guards (n : ℕ) (va : U32) (instRead : Bool) : Guards (Tight icap dcap) E (load n va instRead) := by
  have hrest : ∀ pa, Guards (Tight icap dcap) E (do
      let ptr ← lift ((← get).getMemPtr n pa)
      return (← get).readMem n ptr : EStateM Stop MMU (BitVec (8 * n))) := fun pa ↦
    .bind .get fun m ↦ .bind (.lift fun e he ↦ hexc e (getMemPtr_error he)) fun ptr ↦ .bind .get fun _ ↦ .pure _
  cases instRead with
  | true => exact .bind (inst_guards hexc hi va .EXEC) hrest
  | false => exact .bind (data_guards hexc hd va .READ) hrest

omit hi in
theorem store_guards {n : ℕ} (va : U32) (data : BitVec (8 * n)) : Guards (Tight icap dcap) E (store va data) :=
  .bind (data_guards hexc hd va .WRITE) fun _ ↦ .bind .get fun _ ↦
    .bind (.lift fun e he ↦ hexc e (getMemPtr_error he)) fun _ ↦ .modify fun _ h ↦ ⟨h.inst, h.data⟩

end

end MMU

structure State.Tight (cap icap dcap : ℕ) (s : State) : Prop where
  traces : s.trace_cache.Tight cap
  mmu : s.mmu.Tight icap dcap

/-- The caches that the command line options make. -/
theorem State.Tight.new {s : State} {cap icap dcap : ℕ} (htraces : s.trace_cache = .new cap)
    (hinst : s.mmu.instTLB_ = .new icap) (hdata : s.mmu.dataTLB_ = .new dcap) : s.Tight cap icap dcap := by
  refine ⟨?_, ?_, ?_⟩
  · rw [htraces]
    exact .new cap
  · rw [hinst]
    exact .new icap
  · rw [hdata]
    exact .new dcap

section

variable {cap icap dcap : ℕ} {E : Stop → Prop} (hi : 1 ≤ icap) (hd : 1 ≤ dcap)
  (hexc : ∀ e : Stop, e.IsException → E e)

include hi hd hexc

theorem State.tight_guarded : Guarded (State.Tight cap icap dcap) E where
  exception := hexc
  regs _ _ h := ⟨h.traces, h.mmu⟩
  pc _ _ h := ⟨h.traces, h.mmu⟩
  world _ _ h := ⟨h.traces, h.mmu⟩
  satp _ _ h := ⟨h.traces, h.mmu.inst, h.mmu.data⟩
  flush _ h := ⟨h.traces.clear, h.mmu.inst.clear, h.mmu.data.clear⟩
  read n va := .zoom (MMU.load_guards hexc hi hd n va false) (fun _ h ↦ h.mmu) fun _ _ h hm ↦ ⟨h.traces, hm⟩
  write va data := .zoom (MMU.store_guards hexc hd va data) (fun _ h ↦ h.mmu) fun _ _ h hm ↦ ⟨h.traces, hm⟩

theorem TraceCache.refer_guards (hcap : 1 ≤ cap) (hspent : E .outOfFuel) (host : Host) :
    Guards (State.Tight cap icap dcap) E (refer host) := by
  have hcmd : ∀ va, Guards (fun s : State ↦ s.mmu.Tight icap dcap) E (getCmd va) := fun va ↦
    .zoom (MMU.load_guards hexc hi hd 4 va true) (fun _ h ↦ h) fun _ _ _ hm ↦ hm
  have hins : ∀ pc, Guards (State.Tight cap icap dcap) E (LRUCache.insert cache pc (Trace.new host)) := by
    intro pc
    have h := LRUCache.Tight.insert_guards (I := fun s : State ↦ s.mmu.Tight icap dcap) cache hcap
      (fun _ _ h ↦ h) pc (Trace.new_guards hexc hspent hcmd host) fun _ _ _ ↦ Trace.new_cache
    refine ⟨fun s a s' hs hrun ↦ ?_, fun s e s' hs ↦ h.error s e s' ⟨hs.mmu, hs.traces⟩⟩
    obtain ⟨hm, hc⟩ := h.ok s a s' ⟨hs.mmu, hs.traces⟩ hrun
    exact ⟨hc, hm⟩
  exact Guarded.getPC.bind fun pc ↦ (hins pc).bind fun _ ↦ .pure _

end

namespace Sim

variable {opts : Options} {host : Host} {s s₁ t : State} {addr : ℕ} {trace : Trace} {n cap icap dcap : ℕ}
  (hcap : 1 ≤ cap) (hi : 1 ≤ icap) (hd : 1 ≤ dcap)

include hcap hi hd

theorem Begins.tight {Q : List Inst → Prop} (h : Sound opts.jit Q s) (hQ : Fetches host Q s)
    (ht : s.Tight cap icap dcap) (hb : Begins opts host s addr trace s₁) : s₁.Tight cap icap dcap := by
  obtain ⟨s₀, hr, htry⟩ := hb.split
  have hrefer := TraceCache.refer_guards hi hd (fun _ _ ↦ trivial : ∀ e : Stop, e.IsException → True) hcap
    trivial host
  have ht₀ := hrefer.ok _ _ _ ht hr
  obtain ⟨hs₀, trace₀, hd₀⟩ := TraceCache.refer_sound h hQ hr
  rw [Trace.tryTranslate_eq opts hs₀.valid hd₀] at htry
  cases htry
  exact ⟨ht₀.traces.modifyAt _ _, ht₀.mmu⟩

theorem iteration_tight (h : Sound opts.jit IsTrace s) (ht : s.Tight cap icap dcap)
    (hrun : (iteration opts host).run s = .ok () t) : t.Tight cap icap dcap := by
  have hguarded : Guarded (State.Tight cap icap dcap) fun _ ↦ True :=
    State.tight_guarded hi hd fun _ _ ↦ trivial
  rcases begins_or_error h (fetches_isTrace host s) with ⟨e, u, -, he⟩ | ⟨addr, trace, s₁, hb⟩
  · rw [he] at hrun
    cases hrun
  have ht₁ := hb.tight hcap hi hd h (fetches_isTrace host s) ht
  cases hc : trace.exec_trace_ with
  | some code =>
    rw [hb.native hc] at hrun
    have hnative := Trace.native_guards hguarded trivial trivial (fun _ _ h ↦ ⟨h.traces, h.mmu⟩)
      (fun _ _ _ _ h ↦ ⟨h.traces, h.mmu.inst, h.mmu.data⟩) host code
    exact hnative.ok _ _ _ ht₁ hrun
  | none =>
    obtain ⟨visited, u, size, hexec, -, rfl⟩ := hb.interpreted_ok hc hrun
    obtain ⟨-, hfit, -⟩ := hb.sound h (fetches_isTrace host s)
    have hchain := Guarded.execFrom hfit.insts (fun inst _ offset ↦ hguarded.exec offset (.inr trivial)) 0
    have hu := hchain.ok _ _ _ ht₁ hexec
    exact ⟨hu.traces, hu.mmu⟩

theorem Rounds.tight (h : Sound opts.jit IsTrace s) (ht : s.Tight cap icap dcap)
    (hr : Rounds opts host s n t) : t.Tight cap icap dcap := by
  have hboth : Sound opts.jit IsTrace t ∧ t.Tight cap icap dcap := by
    refine hr.invariant (I := fun u ↦ Sound opts.jit IsTrace u ∧ u.Tight cap icap dcap) ⟨h, ht⟩
      fun u u' hu hrun ↦ ⟨?_, ?_⟩
    · exact iteration_sound hu.1 (fetches_isTrace host u) (fun _ ht ↦ ht) hrun
    · exact iteration_tight hcap hi hd hu.1 hu.2 hrun
  exact hboth.2

/-- In every run the three caches count their elements exactly, stay within their capacities, and have
room for a next element, or one to evict. -/
theorem caches_exact (htraces : s.trace_cache = .new cap) (hinst : s.mmu.instTLB_ = .new icap)
    (hdata : s.mmu.dataTLB_ = .new dcap) (hr : Rounds opts host s n t) : t.Tight cap icap dcap ∧
      (∃ c, t.trace_cache.makeRoom = .ok c ∧ c.entries_.length < cap) ∧
      (∃ c, t.mmu.instTLB_.makeRoom = .ok c ∧ c.entries_.length < icap) ∧
      ∃ c, t.mmu.dataTLB_.makeRoom = .ok c ∧ c.entries_.length < dcap := by
  have ht := hr.tight hcap hi hd (.new cap htraces) (.new htraces hinst hdata)
  have hroom : ∀ {κ α : Type} [DecidableEq κ] {c : LRUCache κ α} {m : ℕ}, c.Tight m → 1 ≤ m →
      ∃ c', c.makeRoom = .ok c' ∧ c'.entries_.length < m := by
    intro κ α _ c m hc hm
    obtain ⟨c', hc', hvalid, hlen, hmax, -⟩ := hc.makeRoom hm
    have hbound := hvalid.bound
    exact ⟨c', hc', by omega⟩
  exact ⟨ht, hroom ht.traces hcap, hroom ht.mmu.inst hi, hroom ht.mmu.data hd⟩

omit hcap hi hd

theorem caches_exact_countdown : ∃ k n t u, Rounds ⟨true, 0, 0⟩ (countdown.host.more k) countdown n t ∧
    (iteration ⟨true, 0, 0⟩ (countdown.host.more k)).run t =
      .error (.simException "Successfully finished!\n") u ∧ t.trace_cache.entries_.length ≤ 1 := by
  obtain ⟨k, n, t, u, hr, hstop⟩ := rounds_countdown
  obtain ⟨ht, -⟩ := caches_exact (le_refl 1) (le_refl 1) (le_refl 1) rfl rfl rfl hr
  exact ⟨k, n, t, u, hr, hstop, ht.traces.length_le⟩

end Sim

end RiscvSim
