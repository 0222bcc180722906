import RiscvSim.Decoder

set_option maxRecDepth 4000

namespace RiscvSim.Decoder

open Isa Ir

def fmtOf (op : ℕ) : CmdFormat :=
  ((opcode_desc.find? fun o ↦ o.opcode.toNat = op).map (·.format)).getD .UNDEFINED

def funct7Rows : ℕ → List (ℕ × Cmd)
  | 0 => [(0, .ADD), (32, .SUB), (1, .MUL)]
  | 1 => [(0, .SLL), (1, .MULH)]
  | 2 => [(0, .SLT), (1, .MULHSU)]
  | 3 => [(0, .SLTU), (1, .MULHU)]
  | 4 => [(0, .XOR), (1, .DIV)]
  | 5 => [(0, .SRL), (32, .SRA), (1, .DIVU)]
  | 6 => [(0, .OR), (1, .REM)]
  | _ => [(0, .AND), (1, .REMU)]

def funct7Cmd (f3 f7 : ℕ) : Cmd :=
  (((funct7Rows f3).find? fun r ↦ r.1 = f7).map (·.2)).getD .UNDEFINED

/-- The last row with this opcode and funct3 owns the byte; the eight bytes of
the R format number the inner tables instead. -/
def cmdByte (i : ℕ) : U8 :=
  if i % 32 = 12 then BitVec.ofNat 8 (i / 32)
  else BitVec.ofNat 8 ((cmd_desc.zipIdx.reverse.find? fun r ↦
    (getOpcodeDesc r.1.opcode).opcode.toNat = i % 32 ∧ r.1.funct3.toNat = i / 32).elim 58 (·.2))

theorem opc_to_fmt_eq : decoder_.opc_to_fmt_.toList = (List.range 32).map fmtOf := by
  decide +kernel

theorem opc_funct3_to_cmd_eq :
    decoder_.opc_funct3_to_cmd_.toList = (List.range 256).map cmdByte := by
  decide +kernel

theorem funct7_to_cmd_eq : decoder_.funct7_to_cmd_.toList.map Vector.toList =
    (List.range 8).map fun f3 ↦ (List.range 128).map (funct7Cmd f3) := by
  decide +kernel

theorem fetch_of_toList {α : Type} {n : ℕ} {xs : Vector α n} {f : ℕ → α}
    (h : xs.toList = (List.range n).map f) {i : ℕ} (hi : i < n) : fetch xs i = .ok (f i) := by
  have hx : xs[i] = f i := by
    have hlen : i < xs.toList.length := by simpa using hi
    have hl : xs.toList[i] = f i := by
      simp only [h, List.getElem_map, List.getElem_range]
    simpa only [Vector.getElem_toList] using hl
  simp only [fetch, hi, dite_true, hx]

theorem fetch_fmt {op : ℕ} (hop : op < 32) : fetch decoder_.opc_to_fmt_ op = .ok (fmtOf op) :=
  fetch_of_toList opc_to_fmt_eq hop

theorem opFunct3_eq {op f3 : ℕ} (hop : op < 32) (hf3 : f3 < 8) : opFunct3 op f3 = f3 * 32 + op := by
  have h := Nat.shiftLeft_add_eq_or_of_lt (show op < 2 ^ 5 by omega) f3
  rw [opFunct3, ← h, Nat.shiftLeft_eq]
  omega

theorem fetch_cmd {op f3 : ℕ} (hop : op < 32) (hf3 : f3 < 8) :
    fetch decoder_.opc_funct3_to_cmd_ (opFunct3 op f3) = .ok (cmdByte (f3 * 32 + op)) := by
  rw [opFunct3_eq hop hf3]
  exact fetch_of_toList opc_funct3_to_cmd_eq (by omega)

theorem funct7_size : decoder_.funct7_to_cmd_.size = 8 := by
  have h := congrArg List.length funct7_to_cmd_eq
  simpa only [List.length_map, Array.length_toList, List.length_range] using h

theorem fetch_funct7 {f3 f7 : ℕ} (hf3 : f3 < decoder_.funct7_to_cmd_.size) (hf7 : f7 < 128) :
    fetch decoder_.funct7_to_cmd_[f3] f7 = .ok (funct7Cmd f3 f7) := by
  refine fetch_of_toList ?_ hf7
  have hf3' : f3 < 8 := funct7_size ▸ hf3
  have h := congrArg (·[f3]?) funct7_to_cmd_eq
  simpa [hf3, hf3'] using h

end RiscvSim.Decoder
