import RiscvSim.TraceCache
import RiscvSim.Library.X86Jumps
import RiscvSim.Library.Fuel

namespace RiscvSim

open Isa Ir State Results

/-- A machine that lets every loop run on for `k` more rounds. -/
def Host.more (host : Host) (k : ℕ) : Host := { host with fuel := host.fuel + k }

theorem LRUCache.insert_prolongs {κ α σ : Type} [DecidableEq κ] (cache : LRUCache.Member σ κ α) (key : κ)
    {make make' : EStateM Stop σ α} (h : Prolongs .outOfFuel make make') :
    Prolongs .outOfFuel (LRUCache.insert cache key make) (LRUCache.insert cache key make') := by
  refine .bind_right _ fun s ↦ ?_
  dsimp only
  cases (cache.get s).links_ key with
  | some addr => exact .refl _
  | none => exact .bind_right _ fun c ↦ .bind_right _ fun _ ↦ h.bind fun val ↦ .refl _

namespace Trace

theorem fetchFrom_prolongs (fuel k : ℕ) (va : U32) :
    Prolongs .outOfFuel (fetchFrom fuel va) (fetchFrom (fuel + k) va) := by
  induction fuel generalizing va with
  | zero => exact .of_spent id (fun _ ↦ rfl) _
  | succ fuel ih =>
    rw [Nat.add_right_comm, fetchFrom, fetchFrom]
    refine .bind_right _ fun cmd ↦ .bind_right _ fun inst ↦ .ite (.refl _) ?_
    exact (ih (va + 4)).bind fun rest ↦ .refl _

variable (host : Host) (k : ℕ)

theorem new_prolongs : Prolongs .outOfFuel (Trace.new host) (Trace.new (host.more k)) :=
  .bind_right _ fun pc ↦ (fetchFrom_prolongs host.fuel k pc).bind fun _ ↦ .refl _

theorem native_prolongs (code : NativeCode) :
    Prolongs .outOfFuel (native host code) (native (host.more k) code) := by
  intro s
  change native (host.more k) code s = native host code s ∨ ∃ s', native host code s = .error .outOfFuel s'
  cases hr : (X86.run (Native.env host.layout host.clobber) .outOfFuel code host.fuel code).run
    (Native.start host.layout (host.regs s) s) with
  | ok u m =>
    have hmore : (X86.run (Native.env (host.more k).layout (host.more k).clobber) .outOfFuel code
        (host.more k).fuel code).run (Native.start (host.more k).layout ((host.more k).regs s) s) = .ok u m :=
      X86.run_more hr k
    exact .inl (by rw [native, native, hr, hmore])
  | error e m =>
    rcases X86.run_more_error hr k with rfl | herror
    · exact .inr ⟨m.world, by rw [native, hr]⟩
    · have hmore : (X86.run (Native.env (host.more k).layout (host.more k).clobber) .outOfFuel code
          (host.more k).fuel code).run (Native.start (host.more k).layout ((host.more k).regs s) s) =
            .error e m :=
        herror
      exact .inl (by rw [native, native, hr, hmore])

theorem execute_prolongs (opts : Options) (addr : ℕ) :
    Prolongs .outOfFuel (execute opts host addr) (execute opts (host.more k) addr) := by
  refine .bind_right _ fun _ ↦ .bind_right _ fun trace ↦ ?_
  cases trace.exec_trace_ with
  | none => exact .refl _
  | some code => exact native_prolongs host k code

end Trace

section

variable (opts : Options) (host : Host) (k : ℕ)

theorem TraceCache.refer_prolongs :
    Prolongs .outOfFuel (TraceCache.refer host) (TraceCache.refer (host.more k)) :=
  .bind_right _ fun pc ↦ (LRUCache.insert_prolongs cache pc (Trace.new_prolongs host k)).bind fun _ ↦ .refl _

theorem Uncached.iteration_prolongs :
    Prolongs .outOfFuel (Uncached.iteration host) (Uncached.iteration (host.more k)) :=
  (Trace.new_prolongs host k).bind fun _ ↦ .refl _

namespace Sim

theorem iteration_prolongs : Prolongs .outOfFuel (iteration opts host) (iteration opts (host.more k)) :=
  (TraceCache.refer_prolongs host k).bind fun addr ↦ Trace.execute_prolongs host k opts addr

/-- More fuel, for the loops and for the number of rounds, changes no run that ended without. -/
theorem execute_prolongs (fuel n : ℕ) :
    Prolongs .outOfFuel (execute opts host fuel) (execute opts (host.more k) (fuel + n)) := by
  induction fuel with
  | zero => exact .of_spent id (fun _ ↦ rfl) _
  | succ fuel ih =>
    rw [Nat.add_right_comm, execute, execute]
    exact (iteration_prolongs opts host k).bind fun _ ↦ .bind_right _ fun s ↦ .ite (.refl _) ih

end Sim

end

end RiscvSim
