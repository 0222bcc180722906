import RiscvSim.DecoderLanguage
import RiscvSim.ExecInst
import RiscvSim.Native

namespace RiscvSim

open Isa Ir Results State

structure Options where
  jit : Bool
  jit_threshold : U64
  max_insts : U64

/-- What the model leaves to the machine it runs on: how long a loop may run before the run
is given up, the addresses and register contents of native code, and what a read of freed
memory yields. -/
structure Host where
  fuel : ℕ
  layout : Layout
  regs : State → X86.Gp → U64
  clobber : Native.Clobber
  stale : State → U64

def idleHost (fuel : ℕ) : Host := ⟨fuel, ⟨0#64, 0#64⟩, fun _ _ ↦ 0, fun _ _ _ ↦ 0, fun _ ↦ 0⟩

/-- One page of memory, and everything else at zero. -/
def onePage (pmem : ℕ → U8) (trace_cache : LRUCache U32 Trace) : State where
  trace_cache := trace_cache
  mmu := ⟨.new 1, .new 1, 4096, pmem, 0x17#32⟩
  regs := .fill0
  pc := 0#32
  executed_insts := 0#64
  world := ⟨[], [], fun _ ↦ ⟨0#32, 0, 0⟩, 0⟩

namespace Trace

/-- The loop of `Trace::Trace` from `address` on. -/
def fetchFrom : ℕ → U32 → Run (List Inst)
  | 0, _ => throw .outOfFuel
  | fuel + 1, address => do
    let inst ← lift (Decoder.decoder_.decode (← getCmd address))
    if inst.isTerminator then return [inst]
    else return inst :: (← fetchFrom fuel (address + 4))

def new (host : Host) : Run Trace := do
  return { trace_ := ← fetchFrom host.fuel (← getPC) }

/-- A member of the trace at `addr`, which may have been freed. -/
def at_ (addr : ℕ) : Run Trace := do
  match (← get).trace_cache.deref addr with
  | some trace => return trace
  | none => throw .undefinedBehaviour

def update (addr : ℕ) (f : Trace → Trace) : Run Unit :=
  modify fun s ↦ { s with trace_cache := s.trace_cache.modifyAt addr f }

/-- The first statement of `execute`: the attempt to translate the trace. -/
def tryTranslate (opts : Options) (addr : ℕ) : Run Unit := do
  if opts.jit then
    let trace ← at_ addr
    if trace.is_eligible_ ∧ trace.exec_trace_.isNone then
      update addr fun trace ↦ { trace with exec_num_ := trace.exec_num_ + 1 }
      if opts.jit_threshold = trace.exec_num_ then
        match Translator.getFunc trace.trace_ (← get).mmu.isVirtualAddressing with
        | none => update addr fun trace ↦ { trace with is_eligible_ := false }
        | some func => update addr fun trace ↦ { trace with exec_trace_ := some func }

def native (host : Host) (code : NativeCode) : Run Unit := fun s ↦
  match (X86.run (Native.env host.layout host.clobber) .outOfFuel code host.fuel code).run
      (Native.start host.layout (host.regs s) s) with
  | .ok _ m => .ok () m.world
  | .error e m => .error e m.world

/-- `trace_.size()`, read when the trace may be gone: FENCE clears the cache it is in. -/
def size (host : Host) (addr : ℕ) : Run U64 := do
  let s ← get
  match s.trace_cache.deref addr with
  | some trace => return BitVec.ofNat 64 trace.trace_.length
  | none => return host.stale s

def execute (opts : Options) (host : Host) (addr : ℕ) : Run Unit := do
  tryTranslate opts addr
  let trace ← at_ addr
  match trace.exec_trace_ with
  | some code => native host code
  | none =>
    let _ ← execFrom 0 trace.trace_
    let size ← size host addr
    modify fun s ↦ { s with executed_insts := s.executed_insts + size }

theorem execute_interpreted {opts : Options} {host : Host} (hjit : opts.jit = false) {s : State}
    {addr : ℕ} {trace : Trace} (haddr : s.trace_cache.deref addr = some trace)
    (hnative : trace.exec_trace_ = none) :
    (execute opts host addr).run s = (do
      let _ ← execFrom 0 trace.trace_
      let size ← size host addr
      modify fun s ↦ { s with executed_insts := s.executed_insts + size } : Run Unit).run s := by
  have htry : (tryTranslate opts addr).run s = .ok () s := by
    rw [tryTranslate, if_neg (by rw [hjit]; exact Bool.false_ne_true)]
    rfl
  have hat : (at_ addr).run s = .ok trace s := by
    rw [at_, run_bind_of_ok (EStateM.run_get s), haddr]
    rfl
  rw [execute, run_bind_of_ok htry, run_bind_of_ok hat, hnative]

end Trace

def TraceCache.refer (host : Host) : Run ℕ := do
  return (← LRUCache.insert cache (← getPC) (Trace.new host)).1

namespace Sim

def iteration (opts : Options) (host : Host) : Run Unit := do
  Trace.execute opts host (← TraceCache.refer host)

/-- The loop of `Sim::execute`; the exception it catches is the result here. -/
def execute (opts : Options) (host : Host) : ℕ → Run Unit
  | 0 => throw .outOfFuel
  | fuel + 1 => do
    iteration opts host
    let s ← get
    if opts.max_insts ≠ 0 ∧ opts.max_insts ≤ s.executed_insts then return
    else execute opts host fuel

end Sim

end RiscvSim
