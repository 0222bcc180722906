import RiscvSim.Library.Results
import Mathlib.Data.BitVec
import Mathlib.Logic.Function.Basic

namespace RiscvSim.X86

open Results

inductive Gp
  | rax | rcx | rdx | rbx | rsp | rbp | rsi | rdi
  | r8 | r9 | r10 | r11 | r12 | r13 | r14 | r15
  deriving DecidableEq, Repr

/-- `[base + disp]`; widths are in bits. -/
structure Mem where
  base : Gp
  disp : BitVec 64
  width : ℕ
  deriving DecidableEq

inductive Operand
  | reg (r : Gp) (width : ℕ)
  | mem (m : Mem)
  | imm (v : BitVec 64)
  deriving DecidableEq

inductive Cond | e | ne | l | ge | b | ae
  deriving DecidableEq

/-- The instructions with a destination and a source. -/
inductive Id
  | mov | movsx | movzx
  | add | sub | and | or | xor | cmp
  | shl | shr | sar
  deriving DecidableEq

/-- `F` names the functions that are called. -/
inductive Inst (F : Type)
  | bin (id : Id) (dst src : Operand)
  | set (c : Cond) (dst : Operand)
  | mul (src : Operand)
  | push (src : Operand)
  | pop (dst : Operand)
  | call (f : F)
  | jcc (c : Cond) (label : ℕ)
  | jmp (label : ℕ)
  | ret
  deriving DecidableEq

inductive Item (F : Type)
  | label (n : ℕ)
  | inst (i : Inst F)
  deriving DecidableEq

namespace Operand

def isReg : Operand → Bool
  | reg .. => true
  | _ => false

def isMem : Operand → Bool
  | mem _ => true
  | _ => false

def isImm : Operand → Bool
  | imm _ => true
  | _ => false

end Operand

/-- The width of an instruction; no instruction has two memory operands or an
immediate destination. -/
def binWidth : Operand → Operand → Option ℕ
  | .reg _ w, .reg _ w' => if w = w' then some w else none
  | .reg _ w, _ => some w
  | .mem _, .reg _ w => some w
  | .mem m, .imm _ => some m.width
  | _, _ => none

def narrow : Operand → Option ℕ
  | .reg _ w => if w < 32 then some w else none
  | .mem m => if m.width < 32 then some m.width else none
  | .imm _ => none

def isCount : Operand → Bool
  | .imm _ => true
  | .reg .rcx 8 => true
  | _ => false

def dstWidth : Operand → Option ℕ
  | .reg _ w => some w
  | .mem m => some m.width
  | .imm _ => none

section

variable {F : Type}

def Inst.encodable : Inst F → Bool
  | .bin .movsx dst src | .bin .movzx dst src => dst.isReg && (narrow src).isSome
  | .bin .shl dst src | .bin .shr dst src | .bin .sar dst src =>
    (dstWidth dst).isSome && isCount src
  | .bin _ dst src => (binWidth dst src).isSome
  | .set _ dst => (dstWidth dst).isSome
  | .mul src => (dstWidth src).isSome
  | .push src => src.isReg
  | .pop dst => dst.isReg
  | .call _ | .jcc .. | .jmp _ | .ret => true

/-- What an assembler appends: nothing where the operands have no encoding. -/
def emit (i : Inst F) : List (Item F) := if i.encodable then [.inst i] else []

end

structure Flags where
  zf : Bool
  sf : Bool
  cf : Bool
  of : Bool
  deriving DecidableEq

def Cond.holds : Cond → Flags → Bool
  | .e, f => f.zf
  | .ne, f => !f.zf
  | .l, f => f.sf != f.of
  | .ge, f => f.sf == f.of
  | .b, f => f.cf
  | .ae, f => !f.cf

/-- A processor in a world; the flags are lost where an instruction leaves some undefined. -/
structure Machine (σ : Type) where
  regs : Gp → BitVec 64
  flags : Option Flags
  stack : List (BitVec 64)
  world : σ

/-- What lies behind the addresses and the names of functions. -/
structure Env (F σ ε : Type) where
  load : BitVec 64 → (w : ℕ) → σ → Except ε (BitVec w)
  store : BitVec 64 → {w : ℕ} → BitVec w → σ → Except ε σ
  call : F → (Gp → BitVec 64) → EStateM ε σ (Gp → BitVec 64)
  fault : ε

namespace Machine

variable {F σ ε : Type} {w : ℕ}

def get (m : Machine σ) (r : Gp) (w : ℕ) : BitVec w := (m.regs r).setWidth w

/-- A 32-bit write clears the upper half, a narrower one keeps the rest. -/
def set (m : Machine σ) (r : Gp) (v : BitVec w) : Machine σ :=
  let whole := if 32 ≤ w then v.setWidth 64 else (m.regs r >>> w) <<< w ||| v.setWidth 64
  { m with regs := Function.update m.regs r whole }

def addr (m : Machine σ) (a : Mem) : BitVec 64 := m.regs a.base + a.disp

def value (env : Env F σ ε) (m : Machine σ) (w : ℕ) : Operand → Except ε (BitVec w)
  | .reg r _ => .ok (m.get r w)
  | .mem a => env.load (m.addr a) w m.world
  | .imm v => .ok (v.setWidth w)

def assign (env : Env F σ ε) (m : Machine σ) (v : BitVec w) : Operand → Except ε (Machine σ)
  | .reg r _ => .ok (m.set r v)
  | .mem a => (env.store (m.addr a) v m.world).map fun s ↦ { m with world := s }
  | .imm _ => .error env.fault

end Machine

def arith {w : ℕ} (id : Id) (a b : BitVec w) : BitVec w × Flags :=
  let logic (r : BitVec w) : BitVec w × Flags := (r, ⟨r == 0#w, r.msb, false, false⟩)
  match id with
  | .add => (a + b, ⟨a + b == 0#w, (a + b).msb, a.uaddOverflow b, a.saddOverflow b⟩)
  | .sub | .cmp => (a - b, ⟨a - b == 0#w, (a - b).msb, a.usubOverflow b, a.ssubOverflow b⟩)
  | .and => logic (a &&& b)
  | .or => logic (a ||| b)
  | .xor => logic (a ^^^ b)
  | _ => logic b

def shift {w : ℕ} (id : Id) (a : BitVec w) (n : ℕ) : BitVec w :=
  match id with
  | .shl => a <<< n
  | .shr => a >>> n
  | _ => a.sshiftRight n

section

variable {F σ ε : Type} (env : Env F σ ε)

def execBin (m : Machine σ) (id : Id) (dst src : Operand) : Except ε (Machine σ) := do
  match id with
  | .movsx | .movzx =>
    let some v := narrow src | throw env.fault
    let some w := dstWidth dst | throw env.fault
    let b ← m.value env v src
    m.assign env (if id = .movsx then b.signExtend w else b.setWidth w) dst
  | .shl | .shr | .sar =>
    let some w := dstWidth dst | throw env.fault
    let a ← m.value env w dst
    let n := (← m.value env 8 src).toNat % (if w = 64 then 64 else 32)
    if n = 0 then m.assign env a dst
    else return { (← m.assign env (shift id a n) dst) with flags := none }
  | .mov =>
    let some w := binWidth dst src | throw env.fault
    m.assign env (← m.value env w src) dst
  | .cmp =>
    let some w := binWidth dst src | throw env.fault
    let a ← m.value env w dst
    let b ← m.value env w src
    return { m with flags := some (arith .cmp a b).2 }
  | id =>
    let some w := binWidth dst src | throw env.fault
    let a ← m.value env w dst
    let b ← m.value env w src
    return { (← m.assign env (arith id a b).1 dst) with flags := some (arith id a b).2 }

def execMul (m : Machine σ) (src : Operand) : Except ε (Machine σ) := do
  let some w := dstWidth src | throw env.fault
  let b ← m.value env w src
  let p := (m.get .rax w).setWidth (w + w) * b.setWidth (w + w)
  return { (m.set .rax (p.setWidth w)).set .rdx ((p >>> w).setWidth w) with flags := none }

def execSet (m : Machine σ) (c : Cond) (dst : Operand) : Except ε (Machine σ) := do
  let some f := m.flags | throw env.fault
  m.assign env (if c.holds f then 1#8 else 0#8) dst

def execPop (m : Machine σ) : Operand → Except ε (Machine σ)
  | .reg r _ =>
    match m.stack with
    | v :: stack => .ok { m.set r v with stack := stack }
    | [] => .error env.fault
  | _ => .error env.fault

def execPush (m : Machine σ) : Operand → Except ε (Machine σ)
  | .reg r _ => .ok { m with stack := m.regs r :: m.stack }
  | _ => .error env.fault

def exec (i : Inst F) : EStateM ε (Machine σ) Unit := do
  let m ← get
  match i with
  | .bin id dst src => set (← lift (execBin env m id dst src))
  | .set c dst => set (← lift (execSet env m c dst))
  | .mul src => set (← lift (execMul env m src))
  | .push src => set (← lift (execPush env m src))
  | .pop dst => set (← lift (execPop env m dst))
  | .call f =>
    match (env.call f m.regs).run m.world with
    | .ok regs s => set { m with regs := regs, flags := none, world := s }
    | .error e s =>
      set { m with world := s }
      throw e
  | .jcc .. | .jmp _ | .ret => throw env.fault

end

section

variable {F σ ε : Type}

def after (label : ℕ) : List (Item F) → Option (List (Item F))
  | [] => none
  | .label n :: rest => if n = label then some rest else after label rest
  | .inst _ :: rest => after label rest

def jump (env : Env F σ ε) (code : List (Item F)) (label : ℕ) :
    EStateM ε (Machine σ) (List (Item F)) :=
  match after label code with
  | some rest => pure rest
  | none => throw env.fault

/-- Runs the items of `code` that are left until the code returns, for as many steps as
there is fuel; what fuel that ran out means is a parameter. -/
def run (env : Env F σ ε) (spent : ε) (code : List (Item F)) :
    ℕ → List (Item F) → EStateM ε (Machine σ) Unit
  | 0, _ => throw spent
  | _ + 1, [] => throw env.fault
  | fuel + 1, .label _ :: rest => run env spent code fuel rest
  | _ + 1, .inst .ret :: _ => pure ()
  | fuel + 1, .inst (.jmp l) :: _ => do run env spent code fuel (← jump env code l)
  | fuel + 1, .inst (.jcc c l) :: rest => do
    match (← get).flags with
    | none => throw env.fault
    | some f =>
      if c.holds f then run env spent code fuel (← jump env code l)
      else run env spent code fuel rest
  | fuel + 1, .inst i :: rest => do
    exec env i
    run env spent code fuel rest

end

end RiscvSim.X86
