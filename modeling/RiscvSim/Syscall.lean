import RiscvSim.State

namespace RiscvSim.Syscall

open Ir Reg State

/-- `fgetc(stdin)`; `none` is `EOF`. -/
def fgetc : Run (Option U8) := do
  let s ← get
  match s.world.stdin with
  | [] => return none
  | c :: rest =>
    set { s with world := { s.world with stdin := rest } }
    return some c

/-- `fputc(c, stdout)` -/
def fputc (c : U8) : Run Unit :=
  modify fun s ↦ { s with world := { s.world with stdout := s.world.stdout ++ [c] } }

def gettimeofday : Run Clock := do
  let s ← get
  set { s with world := { s.world with asked := s.world.asked + 1 } }
  return s.world.clock s.world.asked

def execClose : Run Unit := setReg a0 0#32

/-- The loop of `ExecRead` from `i` on, `n` rounds before `a2`. -/
def readLoop (addr len : U32) : ℕ → ℕ → Run Unit
  | _, 0 => setReg a0 len
  | i, n + 1 => do
    match ← fgetc with
    | some res =>
      write (n := 1) (addr + BitVec.ofNat 32 i) res
      readLoop addr len (i + 1) n
    | none => setReg a0 (BitVec.ofNat 32 i)

def execRead : Run Unit := do
  let addr ← getReg a1
  let len ← getReg a2
  readLoop addr len 0 len.toNat

def writeLoop (addr : U32) : ℕ → ℕ → Run Unit
  | _, 0 => return
  | i, n + 1 => do
    fputc (← read 1 (addr + BitVec.ofNat 32 i))
    writeLoop addr (i + 1) n

def execWrite : Run Unit := do
  let addr ← getReg a1
  let len ← getReg a2
  writeLoop addr 0 len.toNat
  setReg a0 len

def execFstat : Run Unit := setReg a0 0#32

def execExit : Run Unit := throw (.simException "Successfully finished!\n")

/-- The structs are stored where a0 and a1 pointed before a0 receives the result. -/
def execGetTimeOfDay : Run Unit := do
  let tv_addr ← getReg a0
  let tz_addr ← getReg a1
  let now ← gettimeofday
  setReg a0 now.result
  write tv_addr now.tv
  write tz_addr now.tz

def execBrk : Run Unit := setReg a0 0#32

def execSysCall (value : U32) : Run Unit :=
  match value.toNat with
  | 57 => execClose
  | 63 => execRead
  | 64 => execWrite
  | 80 => execFstat
  | 93 => execExit
  | 169 => execGetTimeOfDay
  | 214 => execBrk
  | _ => return

end RiscvSim.Syscall
