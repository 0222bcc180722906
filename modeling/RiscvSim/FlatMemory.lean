import RiscvSim.Bare
import RiscvSim.Tlb

namespace RiscvSim

open Results

namespace Flat

/-- The value of `n` bytes, the lowest address first. -/
def littleEndian (mem : ℕ → U8) (a : ℕ) : ℕ → ℕ
  | 0 => 0
  | n + 1 => (mem a).toNat + 256 * littleEndian mem (a + 1) n

def Inside (size : ℕ) (a : Access) : Prop := a.va.toNat + a.size ≤ size

instance (size : ℕ) (a : Access) : Decidable (Inside size a) := Nat.decLe _ _

/-- The last value stored to a byte; a history lists the accesses, the latest first. -/
def lastStored (size : ℕ) (mem : ℕ → U8) : List Access → ℕ → U8
  | [], b => mem b
  | a :: history, b =>
    match a with
    | .store n va data =>
      if Inside size (.store n va data) ∧ va.toNat ≤ b ∧ b < va.toNat + n then
        Bytes.byte data (b - va.toNat)
      else lastStored size mem history b
    | .fetch .. | .load .. => lastStored size mem history b

/-- What a memory of `size` bytes answers to an access after a history. -/
def outcome (size : ℕ) (mem : ℕ → U8) (history : List Access) (a : Access) : Except Stop ℕ :=
  if Inside size a then
    match a with
    | .fetch n va | .load n va => .ok (littleEndian (lastStored size mem history) va.toNat n)
    | .store .. => .ok 0
  else .error (.simException "Address is out of memory")

def outcomes (size : ℕ) (mem : ℕ → U8) : List Access → List Access → List (Except Stop ℕ)
  | _, [] => []
  | history, a :: accesses =>
    outcome size mem history a :: outcomes size mem (a :: history) accesses

variable {size : ℕ} {mem : ℕ → U8} {history : List Access} {a : Access}

theorem outcome_of_not_inside (h : ¬ Inside size a) :
    outcome size mem history a = .error (.simException "Address is out of memory") := if_neg h

theorem outcome_of_inside (h : Inside size a) : ∃ v, outcome size mem history a = .ok v := by
  cases a with
  | fetch n va => exact ⟨_, if_pos h⟩
  | load n va => exact ⟨_, if_pos h⟩
  | store n va data => exact ⟨_, if_pos h⟩

theorem toNat_read (mem : ℕ → U8) (a n : ℕ) : (Bytes.read mem a n).toNat = littleEndian mem a n := by
  induction n generalizing a with
  | zero => rfl
  | succ n ih =>
    have happ := BitFields.toNat_append (Bytes.read mem (a + 1) n) (mem a)
    rw [ih] at happ
    rw [littleEndian]
    exact happ.trans (by omega)

end Flat

namespace MMU

open Flat

def perform (a : Access) : EStateM Stop MMU ℕ := do
  match a with
  | .fetch n va => return (← load n va true).toNat
  | .load n va => return (← load n va false).toNat
  | .store _ va data =>
    store va data
    return 0

section

variable {m : MMU} {mem : ℕ → U8} {history : List Access}

structure Holds (size : ℕ) (mem : ℕ → U8) (history : List Access) (m : MMU) : Prop where
  bare : m.isVirtualAddressing = false
  extent : m.pmem_size_ = size
  bytes : m.pmem_ = lastStored size mem history

theorem load_outside (hv : m.isVirtualAddressing = false) {n : ℕ} {va : U32} (fetch : Bool)
    (h : m.pmem_size_ ≤ va.toNat + n) :
    (load n va fetch).run m = .error (.simException "Address is out of memory") m := by
  rw [load_bare hv, getMemPtr_setWidth, if_pos h]

theorem load_inside (hv : m.isVirtualAddressing = false) {n : ℕ} {va : U32} (fetch : Bool)
    (h : ¬ m.pmem_size_ ≤ va.toNat + n) :
    (load n va fetch).run m = .ok (m.readMem n va.toNat) m := by
  rw [load_bare hv, getMemPtr_setWidth, if_neg h]

theorem store_outside (hv : m.isVirtualAddressing = false) {n : ℕ} {va : U32}
    (data : BitVec (8 * n)) (h : m.pmem_size_ ≤ va.toNat + n) :
    (store va data).run m = .error (.simException "Address is out of memory") m := by
  rw [store_bare hv, getMemPtr_setWidth, if_pos h]

theorem store_inside (hv : m.isVirtualAddressing = false) {n : ℕ} {va : U32}
    (data : BitVec (8 * n)) (h : ¬ m.pmem_size_ ≤ va.toNat + n) :
    (store va data).run m = .ok () (m.writeMem va.toNat data) := by
  rw [store_bare hv, getMemPtr_setWidth, if_neg h]

/-- An access that reaches the end of memory is refused, whether it fits or not. -/
theorem perform_outside (hv : m.isVirtualAddressing = false) {a : Access}
    (h : m.pmem_size_ ≤ a.va.toNat + a.size) :
    Simulation.attempt (perform a) m = (.error (.simException "Address is out of memory"), m) := by
  have hrun : (perform a).run m = .error (.simException "Address is out of memory") m := by
    cases a with
    | fetch n va => exact run_bind_of_error (load_outside hv true h)
    | load n va => exact run_bind_of_error (load_outside hv false h)
    | store n va data => exact run_bind_of_error (store_outside hv data h)
  rw [Simulation.attempt, hrun]

theorem perform_inside {size : ℕ} (hm : Holds size mem history m) {a : Access}
    (h : ¬ size ≤ a.va.toNat + a.size) : ∃ m',
      Simulation.attempt (perform a) m = (outcome size mem history a, m') ∧
        Holds size mem (a :: history) m' := by
  have hin : Inside size a := Nat.le_of_not_le h
  rw [← hm.extent] at h
  have hread : ∀ n va, (m.readMem n va).toNat = littleEndian (lastStored size mem history) va n := by
    intro n va
    rw [← hm.bytes]
    exact toNat_read _ _ _
  cases a with
  | fetch n va =>
    have hrun : (perform (.fetch n va)).run m = .ok (m.readMem n va.toNat).toNat m :=
      run_bind_of_ok (load_inside hm.bare true h)
    refine ⟨m, ?_, hm.bare, hm.extent, hm.bytes⟩
    rw [Simulation.attempt_of_ok hrun, hread, outcome, if_pos hin]
  | load n va =>
    have hrun : (perform (.load n va)).run m = .ok (m.readMem n va.toNat).toNat m :=
      run_bind_of_ok (load_inside hm.bare false h)
    refine ⟨m, ?_, hm.bare, hm.extent, hm.bytes⟩
    rw [Simulation.attempt_of_ok hrun, hread, outcome, if_pos hin]
  | store n va data =>
    have hrun : (perform (.store n va data)).run m = .ok 0 (m.writeMem va.toNat data) :=
      run_bind_of_ok (store_inside hm.bare data h)
    refine ⟨m.writeMem va.toNat data, ?_, hm.bare, hm.extent, ?_⟩
    · rw [Simulation.attempt_of_ok hrun, outcome, if_pos hin]
    · funext b
      simp only [writeMem, Bytes.write, lastStored, hin, true_and, hm.bytes]

end

theorem holds_outside {size : ℕ} {mem : ℕ → U8} {history : List Access} {m : MMU}
    (hm : Holds size mem history m) {a : Access} (h : ¬ Inside size a) :
    Holds size mem (a :: history) m := by
  refine ⟨hm.bare, hm.extent, ?_⟩
  rw [hm.bytes]
  funext b
  cases a with
  | store n va data => rw [lastStored, if_neg fun hb ↦ h hb.1]
  | fetch n va => rfl
  | load n va => rfl

/-- A step answers like the memory exactly when the access does not end at its last byte. -/
theorem perform_eq_iff {size : ℕ} {mem : ℕ → U8} {history : List Access} {m : MMU}
    (hm : Holds size mem history m) (a : Access) :
    ((Simulation.attempt (perform a) m).1 = outcome size mem history a ↔ a.va.toNat + a.size ≠ size) ∧
      (a.va.toNat + a.size ≠ size → Holds size mem (a :: history) (Simulation.attempt (perform a) m).2) := by
  by_cases h : size ≤ a.va.toNat + a.size
  · have hout := perform_outside hm.bare (by rwa [hm.extent])
    rw [hout]
    by_cases he : a.va.toNat + a.size = size
    · refine ⟨iff_of_false ?_ (not_not.mpr he), fun hne ↦ absurd he hne⟩
      have hin : Inside size a := he.le
      obtain ⟨v, hv⟩ : ∃ v, outcome size mem history a = .ok v := outcome_of_inside hin
      rw [hv]
      intro hok
      cases hok
    · have hnot : ¬ Inside size a := fun hin ↦ he (Nat.le_antisymm hin h)
      refine ⟨iff_of_true ?_ he, fun _ ↦ holds_outside hm hnot⟩
      exact (outcome_of_not_inside hnot).symm
  · obtain ⟨m', hrun, hm'⟩ := perform_inside hm h
    have hne : a.va.toNat + a.size ≠ size := by
      intro he
      exact h he.ge
    rw [hrun]
    exact ⟨iff_of_true rfl hne, fun _ ↦ hm'⟩

def performAll (accesses : List Access) (m : MMU) : List (Except Stop ℕ) × MMU :=
  Simulation.run (fun a ↦ Simulation.attempt (perform a)) accesses m

theorem performAll_iff {size : ℕ} {mem : ℕ → U8} (accesses : List Access) {history : List Access}
    {m : MMU} (hm : Holds size mem history m) :
    ((performAll accesses m).1 = outcomes size mem history accesses ∧
      (performAll accesses m).2.pmem_ = lastStored size mem (accesses.reverse ++ history)) ↔
      ∀ a ∈ accesses, a.va.toNat + a.size ≠ size := by
  induction accesses generalizing history m with
  | nil => simp [performAll, Simulation.run, outcomes, hm.bytes]
  | cons a accesses ih =>
    obtain ⟨hout, hnext⟩ := perform_eq_iff hm a
    rw [List.forall_mem_cons, List.reverse_cons, List.append_assoc]
    constructor
    · rintro ⟨houts, hbytes⟩
      rw [performAll, Simulation.run, outcomes] at houts
      obtain ⟨h₁, h₂⟩ := List.cons.inj houts
      have ha := hout.mp h₁
      exact ⟨ha, (ih (hnext ha)).mp ⟨h₂, hbytes⟩⟩
    · rintro ⟨ha, hrest⟩
      obtain ⟨h₂, hbytes⟩ := (ih (hnext ha)).mpr hrest
      exact ⟨List.cons_eq_cons.mpr ⟨hout.mpr ha, h₂⟩, hbytes⟩

/-- In bare mode a sequence of accesses is answered as memory of `pmem_size_` bytes answers it,
and leaves what was stored last, exactly when none of them ends at the last byte of memory. -/
theorem bare_memory_iff (mmu : MMU) (hv : mmu.isVirtualAddressing = false) (accesses : List Access) :
    ((performAll accesses mmu).1 = outcomes mmu.pmem_size_ mmu.pmem_ [] accesses ∧
      (performAll accesses mmu).2.pmem_ = lastStored mmu.pmem_size_ mmu.pmem_ accesses.reverse) ↔
      ∀ a ∈ accesses, a.va.toNat + a.size ≠ mmu.pmem_size_ := by
  have hm : Holds mmu.pmem_size_ mmu.pmem_ [] mmu := ⟨hv, rfl, rfl⟩
  have h := performAll_iff accesses hm
  rwa [List.append_nil] at h

/-- A word stored over a byte, and read back one byte further. -/
theorem bare_memory_iff_overlap :
    let mmu := (onePage (fun _ ↦ 0) (.new 1)).mmu
    let accesses := [.store 1 8#32 7#8, .store 4 6#32 0x04030201#32, .load 2 7#32]
    (performAll accesses mmu).1 = outcomes mmu.pmem_size_ mmu.pmem_ [] accesses ∧
      (performAll accesses mmu).2.pmem_ = lastStored mmu.pmem_size_ mmu.pmem_ accesses.reverse :=
  (bare_memory_iff _ (by decide) _).mpr (by decide)

/-- The last byte of a page of memory cannot be read. -/
theorem last_byte_refused : ¬ ∀ mmu : MMU, mmu.isVirtualAddressing = false →
    ∀ accesses, (performAll accesses mmu).1 = outcomes mmu.pmem_size_ mmu.pmem_ [] accesses := by
  intro h
  have hlast := h (onePage (fun _ ↦ 0) (.new 1)).mmu (by decide) [.load 1 4095#32]
  exact absurd (List.head_eq_of_cons_eq hlast) (by decide)

end MMU

end RiscvSim
