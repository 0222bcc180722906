import RiscvSim.Ir
import RiscvSim.Mmu
import RiscvSim.Library.X86

namespace RiscvSim

open Isa Ir Results

/-- The types the templates of `State::read` and `State::write` are used at. -/
inductive AccessAs
  | int8_t | int16_t | int32_t | uint8_t | uint16_t | uint32_t
  deriving DecidableEq

def AccessAs.bytes : AccessAs → ℕ
  | .int8_t | .uint8_t => 1
  | .int16_t | .uint16_t => 2
  | .int32_t | .uint32_t => 4

/-- The functions native code calls. -/
inductive Callee
  | read (T : AccessAs)
  | write (T : AccessAs)
  deriving DecidableEq

abbrev NativeCode := List (X86.Item Callee)

structure Trace where
  trace_ : List Inst
  exec_trace_ : Option NativeCode := none
  exec_num_ : U64 := 0
  is_eligible_ : Bool := true

/-- The register file; `setReg` never writes register 0. -/
structure Regs where
  get : Reg → U32
  zero : get 0 = 0#32

namespace Regs

theorem ext {r r' : Regs} (h : ∀ i, r.get i = r'.get i) : r = r' := by
  cases r
  cases r'
  congr
  exact funext h

def fill0 : Regs := ⟨fun _ ↦ 0#32, rfl⟩

def set (r : Regs) (reg : Reg) (val : U32) : Regs :=
  if h : reg = 0 then r
  else ⟨Function.update r.get reg val, by rw [Function.update_of_ne (Ne.symm h), r.zero]⟩

theorem get_zero (r : Regs) : r.get 0 = 0#32 := r.zero

theorem set_zero (r : Regs) (val : U32) : r.set 0 val = r := dif_pos rfl

theorem get_set_self (r : Regs) {reg : Reg} (h : reg ≠ 0) (val : U32) :
    (r.set reg val).get reg = val := by
  rw [set, dif_neg h]
  exact Function.update_self _ _ _

theorem get_set_of_ne (r : Regs) {reg reg' : Reg} (h : reg' ≠ reg) (val : U32) :
    (r.set reg val).get reg' = r.get reg' := by
  unfold set
  split
  · rfl
  · exact Function.update_of_ne h _ _

theorem get_set_congr {r r' : Regs} {reg : Reg} (h : r.get reg = r'.get reg) (reg' : Reg) (val : U32) :
    (r.set reg' val).get reg = (r'.set reg' val).get reg := by
  by_cases hr : reg = reg'
  · subst hr
    by_cases hz : reg = 0
    · rw [hz, get_zero, get_zero]
    · rw [get_set_self _ hz, get_set_self _ hz]
  · rw [get_set_of_ne _ hr, get_set_of_ne _ hr, h]

theorem set_set (r : Regs) (reg : Reg) (val val' : U32) :
    (r.set reg val).set reg val' = r.set reg val' := by
  by_cases h : reg = 0
  · simp only [h, set_zero]
  · apply ext
    intro i
    by_cases hi : i = reg
    · rw [hi, get_set_self _ h, get_set_self _ h]
    · rw [get_set_of_ne _ hi, get_set_of_ne _ hi, get_set_of_ne _ hi]

theorem set_get_self (r : Regs) (reg : Reg) : r.set reg (r.get reg) = r := by
  apply ext
  intro i
  by_cases hi : i = reg
  · rw [hi]
    by_cases h : reg = 0
    · rw [h, set_zero]
    · rw [get_set_self _ h]
  · rw [get_set_of_ne _ hi]

theorem get_set_get (r : Regs) (reg reg' : Reg) : (r.set reg (r.get reg')).get reg' = r.get reg' := by
  by_cases h : reg' = reg
  · subst h
    by_cases hz : reg' = 0
    · rw [hz, set_zero]
    · rw [get_set_self _ hz]
  · rw [get_set_of_ne _ h]

end Regs

/-- An answer of `gettimeofday`: the result and the bytes of the two structs. -/
structure Clock where
  result : U32
  tv : BitVec (8 * 16)
  tz : BitVec (8 * 8)

structure World where
  stdin : List U8
  stdout : List U8
  clock : ℕ → Clock
  asked : ℕ

/-- `trace_cache` and `mmu` are static members and are kept with the object here. -/
structure State where
  trace_cache : LRUCache U32 Trace
  mmu : MMU
  regs : Regs
  pc : U32
  executed_insts : U64
  world : World

abbrev Run := EStateM Stop State

namespace State

def cache : LRUCache.Member State U32 Trace where
  get s := s.trace_cache
  set c s := { s with trace_cache := c }
  get_set _ _ := rfl
  set_get _ := rfl
  set_set _ _ _ := rfl

def setReg (reg : Reg) (val : U32) : Run Unit := modify fun s ↦ { s with regs := s.regs.set reg val }

def getReg (reg : Reg) : Run U32 := do return (← get).regs.get reg

def getPC : Run U32 := do return (← get).pc

def setPC (new_pc : U32) : Run Unit := modify fun s ↦ { s with pc := new_pc }

/-- A member function of the static `mmu`. -/
def onMmu {α : Type} (x : EStateM Stop MMU α) : Run α := zoom State.mmu (fun m s ↦ { s with mmu := m }) x

/-- `read<T>` for an `n`-byte type. -/
def read (n : ℕ) (va : U32) : Run (BitVec (8 * n)) := onMmu (MMU.load n va false)

/-- `write<T>` for an `n`-byte type. -/
def write {n : ℕ} (va : U32) (data : BitVec (8 * n)) : Run Unit := onMmu (MMU.store va data)

def getCmd (va : U32) : Run U32 := onMmu (MMU.load 4 va true)

def flush : Run Unit :=
  modify fun s ↦ { s with mmu := s.mmu.flush, trace_cache := s.trace_cache.clear }

end State

end RiscvSim
