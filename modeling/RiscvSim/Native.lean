import RiscvSim.TranslateInst

namespace RiscvSim

open Isa Ir X86 Results

structure Layout where
  state : U64
  mem : U64

inductive Place
  | reg (r : Reg)
  | pc
  | mem
  | insts
  | guest (a : ℕ)
  deriving DecidableEq

namespace Native

def fieldAt (offset : ℕ) : Option Place :=
  if h : offset < 128 then
    if offset % 4 = 0 then some (.reg ⟨offset / 4, by omega⟩) else none
  else if offset = 128 then some .pc
  else if offset = 136 then some .mem
  else if offset = 144 then some .insts
  else none

/-- Addresses outside the `State` object are offsets into guest memory. -/
def placeOf (layout : Layout) (addr : U64) : Option Place :=
  let offset := (addr - layout.state).toNat
  if offset < 152 then fieldAt offset
  else some (.guest (addr - layout.mem).toNat)

def load (layout : Layout) (addr : U64) (w : ℕ) (s : State) : Except Stop (BitVec w) :=
  match placeOf layout addr with
  | some (.reg r) => if w ≤ 32 then .ok ((s.regs.get r).setWidth w) else .error .undefinedBehaviour
  | some .pc => if w ≤ 32 then .ok (s.pc.setWidth w) else .error .undefinedBehaviour
  | some .mem => .ok (layout.mem.setWidth w)
  | some .insts => .ok (s.executed_insts.setWidth w)
  | some (.guest a) =>
    if a + w / 8 ≤ s.mmu.pmem_size_ then .ok ((Bytes.read s.mmu.pmem_ a (w / 8)).setWidth w)
    else .error .undefinedBehaviour
  | none => .error .undefinedBehaviour

def replace {n w : ℕ} (old : BitVec n) (v : BitVec w) : BitVec n :=
  if n ≤ w then v.setWidth n else (old >>> w) <<< w ||| v.setWidth n

/-- No template names the slot of register 0, and none writes the pointer to the memory. -/
def store (layout : Layout) (addr : U64) {w : ℕ} (v : BitVec w) (s : State) : Except Stop State :=
  match placeOf layout addr with
  | some (.reg r) =>
    if w ≤ 32 ∧ r ≠ 0 then .ok { s with regs := s.regs.set r (replace (s.regs.get r) v) }
    else .error .undefinedBehaviour
  | some .pc => if w ≤ 32 then .ok { s with pc := replace s.pc v } else .error .undefinedBehaviour
  | some .insts => .ok { s with executed_insts := replace s.executed_insts v }
  | some (.guest a) =>
    if a + w / 8 ≤ s.mmu.pmem_size_ then
      .ok { s with mmu := s.mmu.writeMem (n := w / 8) a (v.setWidth _) }
    else .error .undefinedBehaviour
  | some .mem | none => .error .undefinedBehaviour

/-- What a C++ function leaves in the registers it need not preserve. -/
abbrev Clobber := Callee → State → Gp → U64

/-- The calling convention: `edi` and `esi` hold the arguments, `eax` the result, and the
registers that are not callee-saved are lost. An exception finds no way through native code. -/
def call (clobber : Clobber) (f : Callee) (regs : Gp → U64) : EStateM Stop State (Gp → U64) := fun s ↦
  let va : U32 := (regs .rdi).setWidth 32
  let saved (r : Gp) : Bool := r ∈ [Gp.rbx, .rbp, .rsp, .r12, .r13, .r14, .r15]
  let after (s : State) (r : Gp) : U64 := if saved r then regs r else clobber f s r
  match f with
  | .read T =>
    match (State.read T.bytes va).run s with
    | .ok v s => .ok (Function.update (after s) .rax (replace (after s .rax) v)) s
    | .error _ s => .error .undefinedBehaviour s
  | .write T =>
    match (State.write (n := T.bytes) va ((regs .rsi).setWidth _)).run s with
    | .ok _ s => .ok (after s) s
    | .error _ s => .error .undefinedBehaviour s

def env (layout : Layout) (clobber : Clobber) : Env Callee State Stop where
  load := load layout
  store := store layout
  call := call clobber
  fault := .undefinedBehaviour

def start (layout : Layout) (regs : Gp → U64) (s : State) : Machine State where
  regs := Function.update regs .rdi layout.state
  flags := none
  stack := []
  world := s

end Native

end RiscvSim
