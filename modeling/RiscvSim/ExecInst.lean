import RiscvSim.Syscall

namespace RiscvSim

open Isa Ir State Results

/-- How an Exec function ends: with `NEXT_INST` or with `END_TRACE`. -/
inductive Flow
  | nextInst
  | endTrace
  deriving DecidableEq

namespace ExecInst

variable (inst : Inst)

def URS1 : Run U32 := getReg inst.getRs1

def URS2 : Run U32 := getReg inst.getRs2

def RD (x : U32) : Run Unit := setReg inst.getRd x

/-- `<<` and `>>` on 32-bit values; a count of 32 or more is undefined. -/
def shiftLeft (a n : U32) : Except Stop U32 :=
  if n.toNat < 32 then .ok (a <<< n) else .error .undefinedBehaviour

def shiftRight (a n : U32) : Except Stop U32 :=
  if n.toNat < 32 then .ok (a >>> n) else .error .undefinedBehaviour

/-- The arithmetic right shift, put together from a logical one and a mask. -/
def shiftRightArith (a n : U32) : Except Stop U32 := do
  let mask ← if a.toInt < 0 ∧ 0 < n.toNat then (~~~ ·) <$> shiftRight (~~~0#32) n else pure 0#32
  return (← shiftRight a n) ||| mask

/-- `/` and `%` on `int32_t`; a zero divisor and a quotient out of range are undefined. -/
def signedDivision (f : U32 → U32 → U32) (a b : U32) : Except Stop U32 :=
  if b = 0 ∨ (a = 0x80000000 ∧ b = -1) then .error .undefinedBehaviour else .ok (f a b)

/-- `/` and `%` on `uint32_t`. -/
def unsignedDivision (f : U32 → U32 → U32) (a b : U32) : Except Stop U32 :=
  if b = 0 then .error .undefinedBehaviour else .ok (f a b)

/-- The interpreter functions by shape; `offset` is `OFFSET`. -/
def regType (f : U32 → U32 → Except Stop U32) : Run Flow := do
  RD inst (← lift (f (← URS1 inst) (← URS2 inst)))
  return .nextInst

def immType (f : U32 → U32 → Except Stop U32) : Run Flow := do
  RD inst (← lift (f (← URS1 inst) inst.getImm))
  return .nextInst

def load (n : ℕ) (extend : BitVec (8 * n) → U32) : Run Flow := do
  RD inst (extend (← read n ((← URS1 inst) + inst.getImm)))
  return .nextInst

def store (n : ℕ) : Run Flow := do
  write (n := n) ((← URS1 inst) + inst.getImm) ((← URS2 inst).setWidth (8 * n))
  return .nextInst

def branch (offset : U32) (taken : U32 → U32 → Bool) : Run Flow := do
  let cur_pc := (← getPC) + offset
  setPC (if taken (← URS1 inst) (← URS2 inst) then cur_pc + inst.getImm * 2 else cur_pc + 4)
  return .endTrace

def execDummy : Run Flow := return .nextInst

def execECALL : Run Flow := do
  Syscall.execSysCall (← getReg Reg.a7)
  return .nextInst

def execFENCE (offset : U32) : Run Flow := do
  flush
  setPC ((← getPC) + offset + 4)
  return .endTrace

def execLB : Run Flow := load inst 1 (·.signExtend 32)

def execLH : Run Flow := load inst 2 (·.signExtend 32)

def execLW : Run Flow := load inst 4 (·.signExtend 32)

def execLBU : Run Flow := load inst 1 (·.setWidth 32)

def execLHU : Run Flow := load inst 2 (·.setWidth 32)

def execSB : Run Flow := store inst 1

def execSH : Run Flow := store inst 2

def execSW : Run Flow := store inst 4

def execLUI : Run Flow := do
  RD inst inst.getImm
  return .nextInst

def execAUIPC (offset : U32) : Run Flow := do
  RD inst ((← getPC) + offset + inst.getImm)
  return .nextInst

def execJAL (offset : U32) : Run Flow := do
  let cur_pc := (← getPC) + offset
  RD inst (cur_pc + 4)
  setPC (cur_pc + inst.getImm * 2)
  return .endTrace

def execJALR (offset : U32) : Run Flow := do
  let cur_pc := (← getPC) + offset
  RD inst (cur_pc + 4)
  let target := (← URS1 inst) + inst.getImm
  setPC (target &&& ~~~1#32)
  return .endTrace

def execBEQ (offset : U32) : Run Flow := branch inst offset fun a b ↦ a == b

def execBNE (offset : U32) : Run Flow := branch inst offset fun a b ↦ a != b

def execBLT (offset : U32) : Run Flow := branch inst offset fun a b ↦ a.slt b

def execBGE (offset : U32) : Run Flow := branch inst offset fun a b ↦ b.sle a

def execBLTU (offset : U32) : Run Flow := branch inst offset fun a b ↦ a.ult b

def execBGEU (offset : U32) : Run Flow := branch inst offset fun a b ↦ b.ule a

def execADDI : Run Flow := immType inst fun a b ↦ .ok (a + b)

def execSLTI : Run Flow := immType inst fun a b ↦ .ok (if a.slt b then 1 else 0)

def execSLTIU : Run Flow := immType inst fun a b ↦ .ok (if a.ult b then 1 else 0)

def execXORI : Run Flow := immType inst fun a b ↦ .ok (a ^^^ b)

def execORI : Run Flow := immType inst fun a b ↦ .ok (a ||| b)

def execANDI : Run Flow := immType inst fun a b ↦ .ok (a &&& b)

def execSLLI : Run Flow := immType inst shiftLeft

def execSRLI : Run Flow := immType inst shiftRight

def execSRAI : Run Flow := immType inst shiftRightArith

def execADD : Run Flow := regType inst fun a b ↦ .ok (a + b)

def execSUB : Run Flow := regType inst fun a b ↦ .ok (a - b)

def execSLL : Run Flow := regType inst fun a b ↦ shiftLeft a (b &&& 0b11111)

def execSLT : Run Flow := regType inst fun a b ↦ .ok (if a.slt b then 1 else 0)

def execSLTU : Run Flow := regType inst fun a b ↦ .ok (if a.ult b then 1 else 0)

def execXOR : Run Flow := regType inst fun a b ↦ .ok (a ^^^ b)

def execSRL : Run Flow := regType inst fun a b ↦ shiftRight a (b &&& 0b11111)

def execSRA : Run Flow := regType inst fun a b ↦ shiftRightArith a (b &&& 0b11111)

def execOR : Run Flow := regType inst fun a b ↦ .ok (a ||| b)

def execAND : Run Flow := regType inst fun a b ↦ .ok (a &&& b)

def execCSRRW : Run Flow := do
  if inst.getImm ≠ 0x180 then throw (.simException "Not satp sysreg is not supported")
  else
    let rs1 ← URS1 inst
    modify fun s ↦ { s with mmu := { s.mmu with satp := s.mmu.satp ||| (rs1 &&& 0x80000000) } }
    return .nextInst

/-- The high half of a 64-bit product. -/
def high (a b : U64) : U32 := ((a * b) >>> 32).setWidth 32

def execMUL : Run Flow := regType inst fun a b ↦ .ok (a * b)

def execMULH : Run Flow := regType inst fun a b ↦ .ok (high (a.signExtend 64) (b.signExtend 64))

def execMULHSU : Run Flow := regType inst fun a b ↦ .ok (high (a.signExtend 64) (b.setWidth 64))

def execMULHU : Run Flow := regType inst fun a b ↦ .ok (high (a.setWidth 64) (b.setWidth 64))

def execDIV : Run Flow := regType inst fun a b ↦
  if b = 0 then .ok (-1) else if b = -1 ∧ a = 0x80000000 then .ok 0x80000000
  else signedDivision BitVec.sdiv a b

def execDIVU : Run Flow := regType inst fun a b ↦
  if b ≠ 0 then unsignedDivision BitVec.udiv a b else .ok 0xffffffff

def execREM : Run Flow := regType inst fun a b ↦
  if b = 0 then .ok a else if b = -1 ∧ a = 0x80000000 then .ok 0
  else signedDivision BitVec.srem a b

def execREMU : Run Flow := regType inst fun a b ↦
  if b ≠ 0 then unsignedDivision BitVec.umod a b else .ok a

end ExecInst

open ExecInst in
/-- The call through `func_`. -/
def Isa.ExecFunc.exec (func : ExecFunc) (inst : Inst) (offset : U32) : Run Flow :=
  match func with
  | .ExecDummy => execDummy
  | .ExecECALL => execECALL
  | .ExecFENCE => execFENCE offset
  | .ExecLB => execLB inst
  | .ExecLH => execLH inst
  | .ExecLW => execLW inst
  | .ExecLBU => execLBU inst
  | .ExecLHU => execLHU inst
  | .ExecSB => execSB inst
  | .ExecSH => execSH inst
  | .ExecSW => execSW inst
  | .ExecLUI => execLUI inst
  | .ExecAUIPC => execAUIPC inst offset
  | .ExecJAL => execJAL inst offset
  | .ExecJALR => execJALR inst offset
  | .ExecBEQ => execBEQ inst offset
  | .ExecBNE => execBNE inst offset
  | .ExecBLT => execBLT inst offset
  | .ExecBGE => execBGE inst offset
  | .ExecBLTU => execBLTU inst offset
  | .ExecBGEU => execBGEU inst offset
  | .ExecADDI => execADDI inst
  | .ExecSLTI => execSLTI inst
  | .ExecSLTIU => execSLTIU inst
  | .ExecXORI => execXORI inst
  | .ExecORI => execORI inst
  | .ExecANDI => execANDI inst
  | .ExecSLLI => execSLLI inst
  | .ExecSRLI => execSRLI inst
  | .ExecSRAI => execSRAI inst
  | .ExecADD => execADD inst
  | .ExecSUB => execSUB inst
  | .ExecSLL => execSLL inst
  | .ExecSLT => execSLT inst
  | .ExecSLTU => execSLTU inst
  | .ExecXOR => execXOR inst
  | .ExecSRL => execSRL inst
  | .ExecSRA => execSRA inst
  | .ExecOR => execOR inst
  | .ExecAND => execAND inst
  | .ExecCSRRW => execCSRRW inst
  | .ExecMUL => execMUL inst
  | .ExecMULH => execMULH inst
  | .ExecMULHSU => execMULHSU inst
  | .ExecMULHU => execMULHU inst
  | .ExecDIV => execDIV inst
  | .ExecDIVU => execDIVU inst
  | .ExecREM => execREM inst
  | .ExecREMU => execREMU inst

/-- `Inst::exec` at index `k` of `trace_`: it runs `NEXT_INST` from there, and reads past the
array if no instruction ends the trace. The result lists the indices it executed. -/
def execFrom (k : ℕ) : List Inst → Run (List ℕ)
  | [] => throw .undefinedBehaviour
  | inst :: rest => do
    match ← inst.func_.exec inst (BitVec.ofNat 32 (4 * k)) with
    | .endTrace => return [k]
    | .nextInst => return k :: (← execFrom (k + 1) rest)

end RiscvSim
