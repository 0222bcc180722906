import RiscvSim.Frames

namespace RiscvSim

open Isa Ir State Results

namespace LRUCache

variable {σ κ α : Type} [DecidableEq κ]

theorem spliceFront_error {c : LRUCache κ α} {key : κ} {addr : ℕ} {e : Stop}
    (h : c.spliceFront key addr = .error e) : e = .undefinedBehaviour := by
  unfold spliceFront at h
  split at h
  all_goals cases h
  all_goals rfl

theorem insert_throws {cache : Member σ κ α} {E : Stop → Prop} (hE : E .undefinedBehaviour) (key : κ)
    {make : EStateM Stop σ α} (hmake : Throws E make) : Throws E (insert cache key make) := by
  refine Throws.bind .get fun s ↦ ?_
  dsimp only
  split
  · refine .bind (.lift fun e he ↦ ?_) fun c ↦ .bind (.modify _) fun _ ↦ .bind hmake fun val ↦
      .bind .get fun _ ↦ .bind (.modify _) fun _ ↦ .pure _
    rw [makeRoom_error he]
    exact hE
  · refine .bind (.lift fun e he ↦ ?_) fun c ↦ .bind (.modify _) fun _ ↦ .pure _
    rw [spliceFront_error he]
    exact hE

end LRUCache

/-- An exception of the simulator. -/
def Stop.IsException (e : Stop) : Prop := ∃ what, e = .simException what

theorem Stop.IsException.ne_outOfFuel {e : Stop} (h : e.IsException) : e ≠ .outOfFuel := by
  obtain ⟨what, rfl⟩ := h
  intro he
  cases he

/-- The computation is never given up for want of fuel. -/
abbrev Finishes {σ α : Type} (x : EStateM Stop σ α) : Prop := Throws (fun e ↦ e ≠ Stop.outOfFuel) x

namespace MMU

theorem getMemPtr_error {mmu : MMU} {n : ℕ} {pa : U64} {e : Stop} (h : mmu.getMemPtr n pa = .error e) :
    e.IsException := by
  rw [getMemPtr] at h
  split at h
  · cases h
    exact ⟨_, rfl⟩
  · cases h

theorem walk_error {mmu : MMU} {va : U32} {i : ℕ} {table : U64} {e : Stop}
    (h : mmu.walk va i table = .error e) : e.IsException := by
  induction i generalizing table with
  | zero =>
    rw [walk] at h
    rcases bind_error h with h | ⟨ptr, -, h⟩
    · exact getMemPtr_error h
    · dsimp only at h
      split at h
      · cases h
        exact ⟨_, rfl⟩
      · split at h
        · cases h
        · cases h
          exact ⟨_, rfl⟩
  | succ i ih =>
    rw [walk] at h
    rcases bind_error h with h | ⟨ptr, -, h⟩
    · exact getMemPtr_error h
    · dsimp only at h
      split at h
      · cases h
        exact ⟨_, rfl⟩
      · split at h
        · cases h
        · exact ih h

theorem translate_finishes (va : U32) (acc : AccessType) : Finishes (translate va acc) := by
  refine .bind .get fun mmu ↦ .ite (.bind (.lift fun e he ↦ (walk_error he).ne_outOfFuel) fun r ↦ ?_) (.pure _)
  exact .ite (.throw nofun) (.ite (.throw nofun) (.bind (.set _) fun _ ↦ .pure _))

theorem physAddr_finishes (tlb : LRUCache.Member MMU U32 PhysAddr) (va : U32) (acc : AccessType) :
    Finishes (physAddr tlb va acc) := by
  refine .bind .get fun mmu ↦ .ite ?_ (.pure _)
  refine .bind (LRUCache.insert_throws nofun va (translate_finishes va acc)) fun res ↦ .bind .get fun m ↦ ?_
  split
  · exact .pure _
  · exact .throw nofun

theorem load_finishes (n : ℕ) (va : U32) (instRead : Bool) : Finishes (load n va instRead) := by
  have hrest : ∀ pa, Finishes (do
      let ptr ← lift ((← get).getMemPtr n pa)
      return (← get).readMem n ptr : EStateM Stop MMU (BitVec (8 * n))) := fun pa ↦
    .bind .get fun m ↦ .bind (.lift fun e he ↦ (getMemPtr_error he).ne_outOfFuel) fun ptr ↦ .bind .get fun _ ↦ .pure _
  cases instRead with
  | true => exact .bind (physAddr_finishes instTLB va .EXEC) hrest
  | false => exact .bind (physAddr_finishes dataTLB va .READ) hrest

theorem store_finishes {n : ℕ} (va : U32) (data : BitVec (8 * n)) : Finishes (store va data) :=
  .bind (physAddr_finishes dataTLB va .WRITE) fun _ ↦ .bind .get fun _ ↦
    .bind (.lift fun _ he ↦ (getMemPtr_error he).ne_outOfFuel) fun _ ↦ .modify _

end MMU

theorem finishes_compositional : Compositional (fun x ↦ Finishes x) where
  pure a := .pure a
  bind := .bind
  throw _ := .throw nofun
  lift x h := .lift fun e he ↦ by rw [h e he]; nofun
  getReg _ := .bind .get fun _ ↦ .pure _
  setReg _ _ := .modify _
  read n va := .zoom (MMU.load_finishes n va false)
  write va data := .zoom (MMU.store_finishes va data)
  fgetc := .bind .get fun s ↦ by
    split
    · exact .pure _
    · exact .bind (.set _) fun _ ↦ .pure _
  fputc _ := .modify _
  gettimeofday := .bind .get fun s ↦ .bind (.set _) fun _ ↦ .pure _

/-- Every instruction is executed to an end. -/
theorem exec_finishes (func : ExecFunc) (inst : Inst) (offset : U32) : Finishes (func.exec inst offset) := by
  have h := finishes_compositional
  cases hp : func.usesPC with
  | false =>
    exact ExecFunc.exec_compositional h inst offset hp fun _ ↦ h.execCSRRW inst fun _ ↦ .modify _
  | true =>
    exact ExecFunc.exec_compositional_pc h inst offset (.bind .get fun _ ↦ .pure _) (fun _ ↦ .modify _) hp
      fun _ ↦ .modify _

theorem execFrom_finishes (k : ℕ) (insts : List Inst) : Finishes (execFrom k insts) := by
  induction insts generalizing k with
  | nil => exact .throw nofun
  | cons inst rest ih =>
    refine .bind (exec_finishes _ inst _) fun flow ↦ ?_
    cases flow with
    | endTrace => exact .pure _
    | nextInst => exact .bind (ih (k + 1)) fun _ ↦ .pure _

end RiscvSim
