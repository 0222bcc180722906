import RiscvSim.Stops
import RiscvSim.TableWords

namespace RiscvSim

open Isa Ir State Results

namespace LRUCache

variable {σ κ α γ : Type} [DecidableEq κ]

theorem insert_ignores {cache : Member σ κ α} {upd : γ → σ → σ} (hget : ∀ c s, cache.get (upd c s) = cache.get s)
    (hset : ∀ l c s, cache.set l (upd c s) = upd c (cache.set l s)) (key : κ) {make : EStateM Stop σ α}
    (hmake : Ignores upd make) : Ignores upd (insert cache key make) := by
  have hput : ∀ l, Ignores upd (modify (cache.set l) : EStateM Stop σ Unit) :=
    fun l ↦ Ignores.modify (hset l)
  have hlast : ∀ val, Ignores upd (do
      let c := cache.get (← get)
      modify (cache.set (c.emplaceFront key val))
      return (c.fresh, true) : EStateM Stop σ (ℕ × Bool)) := by
    intro val c s
    rw [run_bind_of_ok (EStateM.run_get _), run_bind_of_ok (EStateM.run_get _), hget]
    exact ((hput _).bind fun _ ↦ Ignores.pure _) c s
  intro c s
  rw [insert, run_bind_of_ok (EStateM.run_get _), run_bind_of_ok (EStateM.run_get _), hget]
  dsimp only
  cases (cache.get s).links_ key with
  | none =>
    exact ((Ignores.lift _).bind fun _ ↦ (hput _).bind fun _ ↦ hmake.bind fun val ↦ hlast val) c s
  | some addr => exact ((Ignores.lift _).bind fun _ ↦ (hput _).bind fun _ ↦ Ignores.pure _) c s

end LRUCache

namespace MMU

/-- The same memory with other bytes beyond its end. -/
def beyond (c : ℕ → U8) (m : MMU) : MMU :=
  { m with pmem_ := fun b ↦ if b < m.pmem_size_ then m.pmem_ b else c b }

section

variable {m : MMU} {n ptr : ℕ} {va : U32} {acc : AccessType}

theorem getMemPtr_inside {pa : U64} (h : m.getMemPtr n pa = .ok ptr) : ptr + n < m.pmem_size_ := by
  simp only [getMemPtr] at h
  split at h
  · cases h
  · cases h
    omega

theorem readMem_beyond (h : ptr + n < m.pmem_size_) (c : ℕ → U8) :
    (m.beyond c).readMem n ptr = m.readMem n ptr :=
  Bytes.read_congr fun b _ hb ↦ if_pos (by omega)

theorem writeMem_beyond (h : ptr + n < m.pmem_size_) (c : ℕ → U8) (data : BitVec (8 * n)) :
    (m.beyond c).writeMem ptr data = (m.writeMem ptr data).beyond c := by
  have hbytes : Bytes.write (m.beyond c).pmem_ ptr data = ((m.writeMem ptr data).beyond c).pmem_ := by
    funext b
    by_cases hin : b < m.pmem_size_
    · simp [Bytes.write, beyond, writeMem, hin]
    · have hout : ¬ (ptr ≤ b ∧ b < ptr + n) := by omega
      simp [Bytes.write, beyond, writeMem, hin, hout]
  exact congrArg (fun p ↦ ({ m with pmem_ := p } : MMU)) hbytes

theorem walkPtrs_inside {i : ℕ} {table_pa : U64} (h : ptr ∈ m.walkPtrs va i table_pa) :
    ptr + 4 < m.pmem_size_ := by
  induction i generalizing table_pa with
  | zero =>
    rw [walkPtrs] at h
    cases hp : m.getMemPtr 4 (table_pa + (ptesize * vpn va 0).setWidth 64) with
    | error e =>
      rw [hp] at h
      cases h
    | ok p =>
      simp only [hp, ite_self, List.mem_singleton] at h
      rw [h]
      exact getMemPtr_inside hp
  | succ i ih =>
    rw [walkPtrs] at h
    cases hp : m.getMemPtr 4 (table_pa + (ptesize * vpn va (i + 1)).setWidth 64) with
    | error e =>
      rw [hp] at h
      cases h
    | ok p =>
      simp only [hp, List.mem_cons] at h
      rcases h with rfl | h
      · exact getMemPtr_inside hp
      · split at h
        · exact ih h
        · cases h

/-- A page walk stays in memory. -/
theorem leafOf_beyond (c : ℕ → U8) (va : U32) (acc : AccessType) :
    (m.beyond c).leafOf va acc = m.leafOf va acc := by
  have hentry : ∀ ptr ∈ m.walkPtrs va 1 m.rootTable, (m.beyond c).pteAt ptr = m.pteAt ptr :=
    fun ptr h ↦ readMem_beyond (walkPtrs_inside h) c
  have hevolves : ∀ ptr ∈ m.walkPtrs va 1 m.rootTable, Evolves (m.pteAt ptr) ((m.beyond c).pteAt ptr) :=
    fun ptr h ↦ .inl (hentry ptr h)
  have hsize : (m.beyond c).pmem_size_ = m.pmem_size_ := rfl
  have hwalk := (walk_congr hsize hevolves).1
  rw [leafOf, leafOf, show (m.beyond c).rootTable = m.rootTable from rfl, hwalk]
  cases hw : m.walk va 1 m.rootTable with
  | error e => rfl
  | ok r =>
    simp only [bind, Except.bind]
    rw [hentry r.1 (walk_mem hw)]

theorem translate_ignores (va : U32) (acc : AccessType) : Ignores beyond (translate va acc) := by
  intro c m
  cases hv : m.isVirtualAddressing with
  | false =>
    have hbare : ∀ m' : MMU, m'.isVirtualAddressing = false →
        (translate va acc).run m' = .ok (va.setWidth 64) m' := by
      intro m' hv'
      rw [translate, run_bind_of_ok (EStateM.run_get m'), if_neg (by rw [hv']; exact Bool.false_ne_true)]
      rfl
    rw [hbare m hv, hbare (m.beyond c) hv]
    rfl
  | true =>
    rw [translate_run hv, translate_run (show (m.beyond c).isVirtualAddressing = true from hv),
      leafOf_beyond]
    cases hl : m.leafOf va acc with
    | error e => rfl
    | ok r =>
      have hin := walkPtrs_inside (walk_mem (leafOf_eq_ok.mp hl).1)
      have hentry : (m.beyond c).pteAt r.1 = m.pteAt r.1 := readMem_beyond hin c
      dsimp only
      rw [hentry, writeMem_beyond hin]
      rfl

theorem physAddr_ignores {tlb : LRUCache.Member MMU U32 PhysAddr}
    (hget : ∀ c m, tlb.get (beyond c m) = tlb.get m)
    (hset : ∀ l c m, tlb.set l (beyond c m) = beyond c (tlb.set l m)) (va : U32) (acc : AccessType) :
    Ignores beyond (physAddr tlb va acc) := by
  have hinsert := LRUCache.insert_ignores hget hset va (translate_ignores va acc)
  intro c m
  rw [physAddr, run_bind_of_ok (EStateM.run_get _), run_bind_of_ok (EStateM.run_get _)]
  cases hv : m.isVirtualAddressing with
  | false =>
    have hv' : (m.beyond c).isVirtualAddressing = false := hv
    rw [hv', if_neg Bool.false_ne_true]
    rfl
  | true =>
    rw [if_pos (show (m.beyond c).isVirtualAddressing = true from hv), if_pos rfl]
    refine (hinsert.bind fun res c m ↦ ?_) c m
    rw [run_bind_of_ok (EStateM.run_get _), run_bind_of_ok (EStateM.run_get _), hget]
    cases (tlb.get m).deref res.1 <;> rfl

theorem inst_ignores (va : U32) (acc : AccessType) : Ignores beyond (physAddr instTLB va acc) :=
  physAddr_ignores (fun _ _ ↦ rfl) (fun _ _ _ ↦ rfl) va acc

theorem data_ignores (va : U32) (acc : AccessType) : Ignores beyond (physAddr dataTLB va acc) :=
  physAddr_ignores (fun _ _ ↦ rfl) (fun _ _ _ ↦ rfl) va acc

theorem load_ignores (n : ℕ) (va : U32) (instRead : Bool) : Ignores beyond (load n va instRead) := by
  have hrest : ∀ pa, Ignores beyond (do
      let ptr ← lift ((← get).getMemPtr n pa)
      return (← get).readMem n ptr : EStateM Stop MMU (BitVec (8 * n))) := by
    intro pa c m
    rw [run_bind_of_ok (EStateM.run_get _), run_bind_of_ok (EStateM.run_get _),
      show (m.beyond c).getMemPtr n pa = m.getMemPtr n pa from rfl]
    cases hp : m.getMemPtr n pa with
    | error e => rfl
    | ok ptr =>
      change EStateM.Result.ok ((m.beyond c).readMem n ptr) (m.beyond c) = .ok (m.readMem n ptr) (m.beyond c)
      rw [readMem_beyond (getMemPtr_inside hp)]
  cases instRead with
  | true => exact (inst_ignores va .EXEC).bind hrest
  | false => exact (data_ignores va .READ).bind hrest

theorem store_ignores (n : ℕ) (va : U32) (data : BitVec (8 * n)) : Ignores beyond (store va data) := by
  refine (data_ignores va .WRITE).bind fun pa c m ↦ ?_
  rw [run_bind_of_ok (EStateM.run_get _), run_bind_of_ok (EStateM.run_get _),
    show (m.beyond c).getMemPtr n pa = m.getMemPtr n pa from rfl]
  cases hp : m.getMemPtr n pa with
  | error e => rfl
  | ok ptr =>
    change EStateM.Result.ok () ((m.beyond c).writeMem ptr data) = .ok () ((m.writeMem ptr data).beyond c)
    rw [writeMem_beyond (getMemPtr_inside hp)]

end

end MMU

namespace State

/-- The same machine with other bytes beyond the end of its memory. -/
def beyond (c : ℕ → U8) (s : State) : State := { s with mmu := s.mmu.beyond c }

theorem onMmu_ignores {α : Type} {x : EStateM Stop MMU α} (h : Ignores MMU.beyond x) :
    Ignores beyond (onMmu x) :=
  h.zoom_into (fun _ _ ↦ rfl) fun _ _ _ ↦ rfl

theorem compositional_ignores : Compositional (fun x ↦ Ignores beyond x) where
  pure a := Ignores.pure a
  bind := Ignores.bind
  throw _ := Ignores.throw _
  lift x _ := Ignores.lift x
  getReg _ := Ignores.gets fun _ _ ↦ rfl
  setReg _ _ := Ignores.modify fun _ _ ↦ rfl
  read n va := onMmu_ignores (MMU.load_ignores n va false)
  write va data := onMmu_ignores (MMU.store_ignores _ va data)
  fgetc := by
    intro c s
    have hworld : (beyond c s).world = s.world := rfl
    rw [Syscall.fgetc, run_bind_of_ok (EStateM.run_get _), run_bind_of_ok (EStateM.run_get _), hworld]
    cases s.world.stdin <;> rfl
  fputc _ := Ignores.modify fun _ _ ↦ rfl
  gettimeofday _ _ := rfl

end State

theorem Isa.ExecFunc.exec_confined (func : ExecFunc) (inst : Inst) (offset : U32) :
    Ignores State.beyond (func.exec inst offset) := by
  cases hp : func.usesPC with
  | false =>
    refine exec_compositional compositional_ignores inst offset hp fun _ ↦ ?_
    exact compositional_ignores.execCSRRW inst fun _ ↦ Ignores.modify fun _ _ ↦ rfl
  | true =>
    refine exec_compositional_pc compositional_ignores inst offset (Ignores.gets fun _ _ ↦ rfl)
      (fun _ ↦ Ignores.modify fun _ _ ↦ rfl) hp fun _ ↦ ?_
    exact Ignores.modify fun _ _ ↦ rfl

theorem execFrom_confined (k : ℕ) (insts : List Inst) : Ignores State.beyond (execFrom k insts) := by
  induction insts generalizing k with
  | nil => exact Ignores.throw _
  | cons inst rest ih =>
    refine (ExecFunc.exec_confined inst.func_ inst _).bind fun flow ↦ ?_
    cases flow with
    | endTrace => exact Ignores.pure _
    | nextInst => exact (ih (k + 1)).bind fun _ ↦ Ignores.pure _

theorem Trace.fetchFrom_confined (fuel : ℕ) (va : U32) : Ignores State.beyond (fetchFrom fuel va) := by
  induction fuel generalizing va with
  | zero => exact Ignores.throw _
  | succ fuel ih =>
    refine (onMmu_ignores (MMU.load_ignores 4 va true)).bind fun cmd ↦ (Ignores.lift _).bind fun inst ↦ ?_
    exact Ignores.ite (Ignores.pure _) ((ih (va + 4)).bind fun _ ↦ Ignores.pure _)

theorem getPC_confined : Ignores State.beyond getPC := Ignores.gets fun _ _ ↦ rfl

theorem Trace.new_confined (host : Host) : Ignores State.beyond (Trace.new host) :=
  getPC_confined.bind fun pc ↦ (fetchFrom_confined host.fuel pc).bind fun _ ↦ Ignores.pure _

theorem TraceCache.refer_confined (host : Host) : Ignores State.beyond (TraceCache.refer host) := by
  have hget : ∀ c s, cache.get (State.beyond c s) = cache.get s := fun _ _ ↦ rfl
  have hset : ∀ l c s, cache.set l (State.beyond c s) = State.beyond c (cache.set l s) := fun _ _ _ ↦ rfl
  have hinsert := fun pc ↦ LRUCache.insert_ignores hget hset pc (Trace.new_confined host)
  exact getPC_confined.bind fun pc ↦ (hinsert pc).bind fun _ ↦ Ignores.pure _

namespace Sim

variable {host : Host} {opts : Options} {s t : State}

/-- What the freed trace leaves for its size to be read from is not in the bytes beyond the memory. -/
def StaleBeside (host : Host) : Prop := ∀ (c : ℕ → U8) (s : State), host.stale (s.beyond c) = host.stale s

theorem size_confined (hstale : StaleBeside host) (addr : ℕ) : Ignores State.beyond (Trace.size host addr) := by
  intro c s
  rw [Trace.size, run_bind_of_ok (EStateM.run_get _), run_bind_of_ok (EStateM.run_get _),
    show (s.beyond c).trace_cache = s.trace_cache from rfl]
  cases s.trace_cache.deref addr with
  | some trace => rfl
  | none =>
    change EStateM.Result.ok (host.stale (s.beyond c)) (s.beyond c) = .ok (host.stale s) (s.beyond c)
    rw [hstale c s]

/-- A round of the interpreter neither reads nor writes beyond the memory. -/
theorem iteration_confined (hjit : opts.jit = false) (hstale : StaleBeside host)
    (h : Sound opts.jit IsTrace s) (c : ℕ → U8) :
    (iteration opts host).run (s.beyond c) = mapState (State.beyond c) ((iteration opts host).run s) := by
  have hrefer := TraceCache.refer_confined host
  rcases begins_or_error h (fetches_isTrace host s) with ⟨e, t, he, hi⟩ | ⟨addr, trace, s₁, hb⟩
  · have he' := hrefer c s
    rw [he] at he'
    rw [hi, iteration, run_bind_of_error he']
    rfl
  · have hbegins : Ignores State.beyond (do
        let addr ← TraceCache.refer host
        Trace.tryTranslate opts addr
        return addr : Run ℕ) := by
      refine hrefer.bind fun addr ↦ Ignores.bind ?_ fun _ ↦ Ignores.pure _
      rw [Trace.tryTranslate, if_neg (by rw [hjit]; exact Bool.false_ne_true)]
      exact Ignores.pure _
    have hrun := hbegins c s
    rw [hb.run] at hrun
    have hb' : Begins opts host (s.beyond c) addr trace (s₁.beyond c) := ⟨hrun, hb.alive⟩
    have hnone := hb.no_code hjit h (fetches_isTrace host s)
    rw [hb.interpreted hnone, hb'.interpreted hnone]
    exact ((execFrom_confined 0 trace.trace_).bind fun _ ↦ (size_confined hstale addr).bind fun _ ↦
      Ignores.modify fun _ _ ↦ rfl) c s₁

theorem execute_ignores (hjit : opts.jit = false) (hstale : StaleBeside host)
    (h : Sound opts.jit IsTrace s) (c : ℕ → U8) (fuel : ℕ) :
    (execute opts host fuel).run (s.beyond c) = mapState (State.beyond c) ((execute opts host fuel).run s) := by
  induction fuel generalizing s with
  | zero => rfl
  | succ fuel ih =>
    have hround := iteration_confined hjit hstale h c
    cases hi : (iteration opts host).run s with
    | error e t =>
      rw [hi] at hround
      rw [execute, run_bind_of_error hi, run_bind_of_error hround]
      rfl
    | ok u t =>
      rw [hi] at hround
      have ht := iteration_sound h (fetches_isTrace host s) (fun _ ht ↦ ht) hi
      rw [execute, run_bind_of_ok hi, run_bind_of_ok hround, run_bind_of_ok (EStateM.run_get _),
        run_bind_of_ok (EStateM.run_get _)]
      change (if opts.max_insts ≠ 0 ∧ opts.max_insts ≤ t.executed_insts then pure ()
        else execute opts host fuel : Run Unit).run (t.beyond c) = _
      split
      · rfl
      · exact ih ht

theorem iteration_size (hjit : opts.jit = false) (h : Sound opts.jit IsTrace s) :
    (final ((iteration opts host).run s)).mmu.pmem_size_ = s.mmu.pmem_size_ := by
  rcases begins_or_error h (fetches_isTrace host s) with ⟨e, t, he, hi⟩ | ⟨addr, trace, s₁, hb⟩
  · rw [hi]
    exact (TraceCache.refer_keeps.of_error he).mode.size
  · have hfetched := (hb.sound h (fetches_isTrace host s)).2.2
    have htail : Keeps (fun s s' : State ↦ s'.mmu.pmem_size_ = s.mmu.pmem_size_) (do
        let _ ← execFrom 0 trace.trace_
        let size ← Trace.size host addr
        modify fun s ↦ { s with executed_insts := s.executed_insts + size } : Run Unit) := by
      have := stable_size.refl
      have := stable_size.trans
      refine (execFrom_keeps_size 0 trace.trace_).bind fun _ ↦ Keeps.bind (fun t ↦ ?_) fun _ ↦
        Keeps.modify fun _ ↦ rfl
      obtain ⟨size, hsize⟩ := TraceCache.size_run host addr t
      rw [hsize]
      rfl
    rw [hb.interpreted (hb.no_code hjit h (fetches_isTrace host s))]
    exact (htail s₁).trans hfetched.mode.size

theorem execute_size (hjit : opts.jit = false) (h : Sound opts.jit IsTrace s) (fuel : ℕ) :
    (final ((execute opts host fuel).run s)).mmu.pmem_size_ = s.mmu.pmem_size_ := by
  induction fuel generalizing s with
  | zero => rfl
  | succ fuel ih =>
    have hround : (final ((iteration opts host).run s)).mmu.pmem_size_ = _ := iteration_size hjit h
    cases hi : (iteration opts host).run s with
    | error e t =>
      rw [hi] at hround
      rw [execute, run_bind_of_error hi]
      exact hround
    | ok u t =>
      rw [hi] at hround
      have ht := iteration_sound h (fetches_isTrace host s) (fun _ ht ↦ ht) hi
      rw [execute, run_bind_of_ok hi, run_bind_of_ok (EStateM.run_get _)]
      split
      · exact hround
      · exact (ih ht).trans hround

/-- Whatever the program, its page tables and its system calls: the interpreter neither reads nor writes a
byte beyond the guest's memory. -/
theorem execute_confined (hjit : opts.jit = false) {cap : ℕ} (hcache : s.trace_cache = .new cap)
    (hstale : StaleBeside host) (fuel : ℕ) :
    (∀ c, (execute opts host fuel).run (s.beyond c) =
      mapState (State.beyond c) ((execute opts host fuel).run s)) ∧
    ∀ b, s.mmu.pmem_size_ ≤ b →
      (final ((execute opts host fuel).run s)).mmu.pmem_ b = s.mmu.pmem_ b := by
  have hsound : Sound opts.jit IsTrace s := .new cap hcache
  have hall := fun c ↦ execute_ignores hjit hstale hsound c fuel
  refine ⟨hall, fun b hb ↦ ?_⟩
  have hself : s.beyond s.mmu.pmem_ = s := by
    simp [State.beyond, MMU.beyond]
  have hsize : (final ((execute opts host fuel).run s)).mmu.pmem_size_ = s.mmu.pmem_size_ :=
    execute_size hjit hsound fuel
  have hrun := hall s.mmu.pmem_
  rw [hself] at hrun
  have hfinal : final ((execute opts host fuel).run s) =
      (final ((execute opts host fuel).run s)).beyond s.mmu.pmem_ := by
    conv_lhs => rw [hrun]
    cases (execute opts host fuel).run s <;> rfl
  rw [hfinal]
  refine if_neg ?_
  rw [hsize]
  exact Nat.not_lt.mpr hb

theorem execute_confined_storeLoop :
    (final ((execute ⟨false, 0, 0⟩ (idleHost 8) 5).run (Trace.storeLoop (.new 1)))).mmu.pmem_ 4096 = 0 := by
  have hcache : (Trace.storeLoop (.new 1)).trace_cache = .new 1 := rfl
  have hall := execute_confined (by rfl : (⟨false, 0, 0⟩ : Options).jit = false) hcache
    (fun _ _ ↦ rfl : StaleBeside (idleHost 8)) 5
  exact hall.2 4096 le_rfl

end Sim

end RiscvSim
