import RiscvSim.JitRuns
import RiscvSim.SyscallFrame
import RiscvSim.Library.Transcripts

namespace RiscvSim

open Isa Ir State Results Simulation SingleStep

/-- What a system call does to its host. -/
inductive Event
  | write (bytes : List U8)
  | read (bytes : List U8)
  | gettimeofday
  deriving DecidableEq

namespace Event

def written : Event → List U8
  | write bytes => bytes
  | _ => []

def taken : Event → List U8
  | read bytes => bytes
  | _ => []

end Event

/-- The events make of the one host the other: output goes behind the output before it, and each byte of
the input is taken once and in its order. -/
structure World.Exchanged (events : List Event) (w w' : World) : Prop where
  output : w'.stdout = w.stdout ++ events.flatMap Event.written
  input : events.flatMap Event.taken ++ w'.stdin = w.stdin
  asked : w'.asked = w.asked + events.count .gettimeofday
  clock : w'.clock = w.clock

namespace World.Exchanged

variable {w w' w'' : World} {events more : List Event}

theorem refl (w : World) : Exchanged [] w w := ⟨(List.append_nil _).symm, rfl, rfl, rfl⟩

theorem of_eq (h : w' = w) : Exchanged [] w w' := by
  subst h
  exact refl w'

theorem append (h : Exchanged events w w') (h' : Exchanged more w' w'') :
    Exchanged (events ++ more) w w'' where
  output := by rw [h'.output, h.output, List.flatMap_append, List.append_assoc]
  input := by rw [List.flatMap_append, List.append_assoc, h'.input, h.input]
  asked := by rw [h'.asked, h.asked, List.count_append, Nat.add_assoc]
  clock := h'.clock.trans h.clock

theorem write (w : World) (bytes : List U8) :
    Exchanged [.write bytes] w { w with stdout := w.stdout ++ bytes } where
  output := congrArg (w.stdout ++ ·) (List.append_nil bytes).symm
  input := rfl
  asked := rfl
  clock := rfl

theorem read (w : World) (n : ℕ) : Exchanged [.read (w.stdin.take n)] w { w with stdin := w.stdin.drop n } where
  output := (List.append_nil _).symm
  input := by
    change (w.stdin.take n ++ []) ++ w.stdin.drop n = w.stdin
    rw [List.append_nil, List.take_append_drop]
  asked := rfl
  clock := rfl

theorem gettimeofday (w : World) : Exchanged [.gettimeofday] w { w with asked := w.asked + 1 } where
  output := (List.append_nil _).symm
  input := rfl
  asked := rfl
  clock := rfl

end World.Exchanged

namespace Syscall

/-- The place of byte `i` of a buffer. -/
def place (addr : U32) (i : ℕ) : ℕ := (addr + BitVec.ofNat 32 i).toNat

/-- How many of `n` bytes, one by one from byte `i` of the buffer on, lie in memory. -/
def reach (size : ℕ) (addr : U32) : ℕ → ℕ → ℕ
  | _, 0 => 0
  | i, n + 1 => if place addr i + 1 < size then reach size addr (i + 1) n + 1 else 0

def bytesAt (mem : ℕ → U8) (addr : U32) : ℕ → ℕ → List U8
  | _, 0 => []
  | i, n + 1 => mem (place addr i) :: bytesAt mem addr (i + 1) n

/-- What the call does to the host: `write` prints as much of its buffer as lies in memory, and `read`
takes no more than it has room for and one byte beyond, which it loses. -/
def events (value : U32) (s : State) : List Event :=
  let addr := s.regs.get Reg.a1
  let len := (s.regs.get Reg.a2).toNat
  let room := reach s.mmu.pmem_size_ addr 0 len
  match value.toNat with
  | 63 => [.read (s.world.stdin.take (min len (room + 1)))]
  | 64 => [.write (bytesAt s.mmu.pmem_ addr 0 room)]
  | 169 => [.gettimeofday]
  | _ => []

end Syscall

def SameWorld (s s' : State) : Prop := s'.world = s.world

namespace SameWorld

instance : Std.Refl SameWorld := ⟨fun _ ↦ rfl⟩

instance : IsTrans State SameWorld := ⟨fun _ _ _ h h' ↦ Eq.trans h' h⟩

theorem silent : Silent (fun x ↦ Keeps SameWorld x) where
  pure := Keeps.pure
  bind := Keeps.bind
  throw _ := Keeps.throw _
  lift x _ := Keeps.lift x
  getReg _ := Keeps.gets _
  setReg _ _ := Keeps.modify fun _ ↦ rfl
  read _ _ := Keeps.zoom (Q := fun _ _ ↦ True) (fun _ ↦ trivial) fun _ _ _ ↦ rfl
  write _ _ := Keeps.zoom (Q := fun _ _ ↦ True) (fun _ ↦ trivial) fun _ _ _ ↦ rfl

theorem final_bind {α β : Type} {x : Run α} {f : α → Run β} (hf : ∀ a, Keeps SameWorld (f a)) (s : State) :
    (final ((x >>= f).run s)).world = (final (x.run s)).world := by
  rw [EStateM.run_bind]
  cases x.run s with
  | ok a t => exact hf a t
  | error e t => rfl

/-- No instruction but ECALL uses the host. -/
theorem exec {func : ExecFunc} (hf : func ≠ .ExecECALL) (inst : Inst) (offset : U32) :
    Keeps SameWorld (func.exec inst offset) := by
  cases hp : func.usesPC with
  | false =>
    refine ExecFunc.exec_silent silent inst offset hp (fun _ ↦ ?_) fun he ↦ absurd he hf
    exact silent.execCSRRW inst fun _ ↦ Keeps.modify fun _ ↦ rfl
  | true =>
    refine ExecFunc.exec_silent_pc silent inst offset (Keeps.gets _) (fun _ ↦ Keeps.modify fun _ ↦ rfl) hp
      fun _ ↦ ?_
    exact Keeps.modify fun _ ↦ rfl

end SameWorld

theorem Bytes.read_one (mem : ℕ → U8) (a : ℕ) : Bytes.read mem a 1 = mem a := by
  have h := Bytes.byte_read mem a (show 0 < 1 from Nat.one_pos)
  rw [Nat.add_zero] at h
  rw [← h, Bytes.byte]
  exact BitVec.extractLsb'_eq_self.symm

namespace Syscall

section

variable (addr : U32) (i : ℕ) {s : State} (hv : s.mmu.isVirtualAddressing = false)

include hv

theorem read_place : (State.read 1 (addr + BitVec.ofNat 32 i)).run s =
    if place addr i + 1 < s.mmu.pmem_size_ then .ok (s.mmu.pmem_ (place addr i)) s
    else .error (.simException "Address is out of memory") s := by
  rw [read_bare hv, MMU.getMemPtr_setWidth, ← place]
  by_cases h : place addr i + 1 < s.mmu.pmem_size_
  · rw [if_pos h, if_neg (not_le.mpr h)]
    exact congrArg (EStateM.Result.ok · s) (Bytes.read_one _ _)
  · rw [if_neg h, if_pos (not_lt.mp h)]

theorem write_place (c : U8) : (State.write (n := 1) (addr + BitVec.ofNat 32 i) c).run s =
    if place addr i + 1 < s.mmu.pmem_size_ then
      .ok () { s with mmu := s.mmu.writeMem (n := 1) (place addr i) c }
    else .error (.simException "Address is out of memory") s := by
  rw [write_bare hv, MMU.getMemPtr_setWidth, ← place]
  by_cases h : place addr i + 1 < s.mmu.pmem_size_
  · rw [if_pos h, if_neg (not_le.mpr h)]
  · rw [if_neg h, if_pos (not_lt.mp h)]

end

theorem writeLoop_world (addr : U32) (n : ℕ) {i : ℕ} {s : State}
    (hv : s.mmu.isVirtualAddressing = false) : (final ((writeLoop addr i n).run s)).world =
      { s.world with
        stdout := s.world.stdout ++ bytesAt s.mmu.pmem_ addr i (reach s.mmu.pmem_size_ addr i n) } := by
  induction n generalizing i s with
  | zero =>
    rw [reach, bytesAt, List.append_nil]
    rfl
  | succ n ih =>
    have hread := read_place addr i hv
    rw [writeLoop, reach]
    by_cases h : place addr i + 1 < s.mmu.pmem_size_
    · rw [if_pos h] at hread ⊢
      let t : State := { s with
        world := { s.world with stdout := s.world.stdout ++ [s.mmu.pmem_ (place addr i)] } }
      have hput : (fputc (s.mmu.pmem_ (place addr i))).run s = .ok () t := rfl
      have hrest : (final ((writeLoop addr (i + 1) n).run t)).world = _ := ih hv
      rw [run_bind_of_ok hread, run_bind_of_ok hput, hrest, bytesAt]
      change World.mk _ (_ ++ [_] ++ _) _ _ = _
      rw [List.append_assoc]
      rfl
    · rw [if_neg h] at hread ⊢
      rw [run_bind_of_error hread, bytesAt, List.append_nil]
      rfl

theorem readLoop_world (addr len : U32) (n : ℕ) {i : ℕ} {s : State}
    (hv : s.mmu.isVirtualAddressing = false) : (final ((readLoop addr len i n).run s)).world =
      { s.world with stdin := s.world.stdin.drop (min n (reach s.mmu.pmem_size_ addr i n + 1)) } := by
  induction n generalizing i s with
  | zero => rfl
  | succ n ih =>
    rw [readLoop, EStateM.run_bind]
    cases hin : s.world.stdin with
    | nil =>
      have hget : fgetc.run s = .ok none s := by
        rw [fgetc, run_bind_of_ok (EStateM.run_get s), hin]
        rfl
      rw [hget, List.drop_nil, ← hin]
      rfl
    | cons c rest =>
      let t : State := { s with world := { s.world with stdin := rest } }
      have hget : fgetc.run s = .ok (some c) t := by
        rw [fgetc, run_bind_of_ok (EStateM.run_get s), hin]
        rfl
      have hwrite := write_place addr i (s := t) hv c
      rw [hget, reach]
      dsimp only
      by_cases h : place addr i + 1 < s.mmu.pmem_size_
      · have hrest := @ih (i + 1) { t with mmu := t.mmu.writeMem (n := 1) (place addr i) c } hv
        rw [if_pos h]
        rw [show t.mmu.pmem_size_ = s.mmu.pmem_size_ from rfl, if_pos h] at hwrite
        rw [run_bind_of_ok hwrite, hrest, Nat.add_min_add_right, List.drop_succ_cons]
        rfl
      · rw [if_neg h]
        rw [show t.mmu.pmem_size_ = s.mmu.pmem_size_ from rfl, if_neg h] at hwrite
        rw [run_bind_of_error hwrite, Nat.zero_add, Nat.min_eq_right (Nat.succ_pos n)]
        rfl

theorem gettimeofday_world (s : State) :
    (final (execGetTimeOfDay.run s)).world = { s.world with asked := s.world.asked + 1 } := by
  have hstores : Keeps SameWorld (write (s.regs.get Reg.a0) (s.world.clock s.world.asked).tv >>= fun _ ↦
      write (s.regs.get Reg.a1) (s.world.clock s.world.asked).tz) :=
    SameWorld.silent.bind (SameWorld.silent.write _ _) fun _ ↦ SameWorld.silent.write _ _
  exact hstores (answered s)

/-- Whether it returns or throws, a call exchanges its events with the host. -/
theorem execSysCall_world (value : U32) {s : State} (hv : s.mmu.isVirtualAddressing = false) :
    World.Exchanged (events value s) s.world (final ((execSysCall value).run s)).world := by
  have hread := readLoop_world (s.regs.get Reg.a1) (s.regs.get Reg.a2) (s.regs.get Reg.a2).toNat (i := 0) hv
  have hwrite := writeLoop_world (s.regs.get Reg.a1) (s.regs.get Reg.a2).toNat (i := 0) hv
  have htime := gettimeofday_world s
  rw [execSysCall, events]
  generalize value.toNat = call
  split
  case h_1 =>
    change World.Exchanged _ _ (final ((readLoop _ _ 0 _).run s)).world
    rw [hread]
    exact .read _ _
  case h_2 =>
    change World.Exchanged _ _ (final ((writeLoop _ 0 _ >>= fun _ ↦ setReg Reg.a0 _).run s)).world
    rw [SameWorld.final_bind fun _ ↦ SameWorld.silent.setReg _ _, hwrite]
    exact .write _ _
  case h_3 =>
    change World.Exchanged _ _ (final (execGetTimeOfDay.run s)).world
    rw [htime]
    exact .gettimeofday _
  case h_4 h63 h64 h169 =>
    split
    · exact .refl _
    · exact absurd rfl h63
    · exact absurd rfl h64
    · exact .refl _
    · exact .refl _
    · exact absurd rfl h169
    · exact .refl _
    · exact .refl _

end Syscall

namespace SingleStep

def console (s : State) : List Event :=
  match s.mmu.fetchInst s.pc with
  | .ok inst => if inst.func_ = .ExecECALL then Syscall.events (s.regs.get Reg.a7) s else []
  | .error _ => []

theorem finish_world (r : EStateM.Result Stop State Flow) : (final (finish r)).world = (final r).world := by
  cases r with
  | ok flow s => cases flow <;> rfl
  | error e s => rfl

theorem step_world {s : State} (hv : s.mmu.isVirtualAddressing = false) :
    World.Exchanged (console s) s.world (final (step.run s)).world := by
  rw [step_bare hv, console]
  cases hi : s.mmu.fetchInst s.pc with
  | error e => exact .refl _
  | ok inst =>
    dsimp only
    rw [finish_world]
    by_cases hf : inst.func_ = .ExecECALL
    · rw [if_pos hf, hf]
      have hcall := Syscall.execSysCall_world (s.regs.get Reg.a7) hv
      change World.Exchanged _ _
        (final ((Syscall.execSysCall (s.regs.get Reg.a7) >>= fun _ ↦ pure Flow.nextInst).run s)).world
      rw [SameWorld.final_bind fun _ ↦ Keeps.pure _]
      exact hcall
    · rw [if_neg hf]
      exact .of_eq (SameWorld.exec hf inst 0 s)

end SingleStep

namespace Settled

variable {host : Host} {words : Set U32} {s s' t : State}

/-- Some words stay as they are fetched, whatever number of steps the machine takes. -/
def Always (host : Host) (s : State) : Prop := ∃ words, ∀ n, Settled host n words s

theorem Always.after_step (h : Always host s) (hrun : step.run s = .ok () s') : Always host s' := by
  obtain ⟨words, h⟩ := h
  obtain ⟨inst, hi, -⟩ := step_eq_ok (h 0).bare hrun
  exact ⟨_, fun n ↦ ((h (n + 1)).2 inst s' hi hrun).2⟩

theorem Always.after_iteration (h : Always host s) (hrun : (Uncached.iteration host).run s = .ok () s') :
    Always host s' := by
  obtain ⟨words, h⟩ := h
  obtain ⟨insts, u, -, -, -, -, -, -, -, hset⟩ := Settled.iteration h hrun
  exact ⟨_, hset⟩

/-- An iteration that throws could not fetch its trace, or came to the step that throws. -/
theorem Always.stop (h : Always host s) {e : Stop} (hrun : (Uncached.iteration host).run s = .error e t) :
    (s.mmu.buildFrom host.fuel s.pc = .error e ∧ t = s) ∨
      ∃ k u u', (iterate step k).run s = .ok () u ∧ step.run u = .error e u' ∧ t = u'.withPC s.pc := by
  obtain ⟨words, h⟩ := h
  have hv := (h 0).bare
  cases hb : s.mmu.buildFrom host.fuel s.pc with
  | error f =>
    rw [uncached_error hv hb] at hrun
    cases hrun
    exact .inl ⟨rfl, rfl⟩
  | ok insts =>
    obtain ⟨htr, hc⟩ := MMU.buildFrom_ok hb
    rw [uncached_run hv hb] at hrun
    rcases run_bind_eq_error.mp hrun with hx | ⟨visited, v, -, hcount⟩
    · obtain ⟨k, u, u', hk, rfl⟩ := (execFrom_error_iff htr 0).mp hx
      rw [show s.advance (BitVec.ofNat 32 (4 * 0)) = s from advance_zero s] at hk
      have hfind := (h insts.length).ahead.finds le_rfl hc (by
        rw [← MMU.lineLength_of_ok hb]
        exact Set.subset_union_right)
      obtain ⟨hreach, hthrow⟩ := hk.steps htr hfind
      exact .inr ⟨k, u, u', hreach, hthrow, rfl⟩
    · cases hcount

/-- The host has had what `m` steps do to it. -/
def Seen (s : State) (m : ℕ) (w : World) : Prop :=
  World.Exchanged (transcript step console m s) s.world w

theorem Always.seen (h : Always host s) {m : ℕ} (hrun : (iterate step m).run s = .ok () t) :
    Seen s m t.world :=
  transcript_run (I := Always host) (R := fun events s s' ↦ World.Exchanged events s.world s'.world)
    (fun s ↦ .refl s.world) (fun h h' ↦ h.append h') (fun _ ⟨_, h⟩ ↦ step_world (h 0).bare)
    (fun _ _ h hrun ↦ h.after_step hrun) h hrun

theorem Always.seen_stop (h : Always host s) {m : ℕ} (hrun : (iterate step m).run s = .ok () t)
    {e : Stop} {t' : State} (hstop : step.run t = .error e t') : Seen s (m + 1) t'.world :=
  transcript_stop (I := Always host) (R := fun events s s' ↦ World.Exchanged events s.world s'.world)
    (fun s ↦ .refl s.world) (fun h h' ↦ h.append h') (fun _ ⟨_, h⟩ ↦ step_world (h 0).bare)
    (fun _ _ h hrun ↦ h.after_step hrun) h hrun hstop

end Settled

namespace Settled

variable {host : Host} {words : Set U32} {s t' : State} {e : Stop}

/-- Where the iterations stop, the host has had the steps before, or also the one that throws. -/
theorem seen_of_stops (h : ∀ n, Settled host n words s) (hstops : Stops (Uncached.iteration host) s e t') :
    ∃ m t, (iterate step m).run s = .ok () t ∧
      ((t.mmu.buildFrom host.fuel t.pc = .error e ∧ Seen s m t'.world) ∨
        ∃ u, step.run t = .error e u ∧ Seen s (m + 1) t'.world) := by
  obtain ⟨n, v, hv, hlast⟩ := hstops
  have hstart : Always host s := ⟨words, h⟩
  have hrounds : ∀ u u', Always host u → (Uncached.iteration host).run u = .ok () u' → Always host u' :=
    fun _ _ hu hrun ↦ hu.after_iteration hrun
  have halways := invariant_iterate hrounds hstart hv
  obtain ⟨m, u, -, hsteps, -, hst, -⟩ := Settled.iterations h hv
  rcases halways.stop hlast with ⟨hb, rfl⟩ | ⟨k, w, w', hreach, hthrow, rfl⟩
  · refine ⟨m, u, hsteps, .inl ⟨?_, ?_⟩⟩
    · rw [hst.mmu, hst.pc]
      exact hb
    · rw [← hst.world]
      exact hstart.seen hsteps
  · -- the steps go on from `u`, which is the machine of `v`
    have halike := iterate_step_alike k hst.symm
    rw [hreach] at halike
    generalize hr : (iterate step k).run u = r at halike
    cases halike with
    | ok _ hst' =>
      have hlike := step_alike hst'
      rw [hthrow] at hlike
      generalize hr' : step.run _ = r' at hlike
      cases hlike with
      | error hst'' =>
        have hrun := iterate_add_eq_ok.mpr ⟨u, hsteps, hr⟩
        have hseen := hstart.seen_stop hrun hr'
        rw [← hst''.world] at hseen
        exact ⟨m + k, _, hrun, .inr ⟨_, hr', hseen⟩⟩

end Settled

/-- Reads two bytes to 0x100, writes them and exits. -/
def echo : State :=
  let mem := Bytes.write (n := 4) (fun _ ↦ 0) 0 0x00000073#32
  let mem := Bytes.write (n := 4) mem 4 0x04000893#32
  let mem := Bytes.write (n := 4) mem 8 0x00000073#32
  let mem := Bytes.write (n := 4) mem 12 0x05d00893#32
  let mem := Bytes.write (n := 4) mem 16 0x00000073#32
  let mem := Bytes.write (n := 4) mem 20 0x0000006f#32
  { onePage mem (.new 1) with
    regs := ((Regs.fill0.set 17 63).set 11 0x100).set 12 2
    world := ⟨[0x68, 0x69], [], fun _ ↦ ⟨0, 0, 0⟩, 0⟩ }

namespace echo

def program : List Inst :=
  [genI .ECALL 0 0 0, genI .ADDI 17 0 64, genI .ECALL 0 0 0,
    genI .ADDI 17 0 93, genI .ECALL 0 0 0, genJ .JAL 0 0]

def next : ℕ → State → State
  | 0, s => { s with
    mmu := (s.mmu.writeMem (n := 1) 0x100 0x68).writeMem (n := 1) 0x101 0x69
    regs := s.regs.set 10 2
    world := { s.world with stdin := [] }
    pc := 4 }
  | 1, s => { s with regs := s.regs.set 17 64, pc := 8 }
  | 2, s => { s with world := { s.world with stdout := [0x68, 0x69] }, regs := s.regs.set 10 2, pc := 12 }
  | _, s => { s with regs := s.regs.set 17 93, pc := 16 }

def after : ℕ → State
  | 0 => echo
  | k + 1 => next k (after k)

def text : Set U32 := {w | w.toNat < 24}

theorem codeAt : echo.mmu.CodeAt 0 program := by
  have fetches : ∀ (va w : U32) (c : Command), va.toNat + 4 < 4096 → echo.mmu.readMem 4 va.toNat = w →
      Selects w c → echo.mmu.fetchInst va = .ok (readAs (formatOf c) c w) :=
    fun va w c hsize hw h ↦ MMU.fetchInst_of_selects hsize hw h
  have hecall : ∀ va : U32, va.toNat + 4 < 4096 → echo.mmu.readMem 4 va.toNat = 0x00000073#32 →
      echo.mmu.fetchInst va = .ok (genI .ECALL 0 0 0) := by
    intro va hsize hw
    have h := fetches va _ .ECALL hsize hw ⟨rfl, rfl, fun _ _ ↦ rfl, nofun, ⟨⟨rfl, rfl⟩, rfl⟩⟩
    rwa [show readAs _ _ _ = genI .ECALL 0 0 0 by decide] at h
  have haddi := fetches 4 0x04000893#32 .ADDI (by decide) (by decide)
    ⟨rfl, rfl, fun _ _ ↦ rfl, nofun, trivial⟩
  have haddi' := fetches 12 0x05d00893#32 .ADDI (by decide) (by decide)
    ⟨rfl, rfl, fun _ _ ↦ rfl, nofun, trivial⟩
  have hjal := fetches 20 0x0000006f#32 .JAL (by decide) (by decide)
    ⟨rfl, rfl, nofun, nofun, trivial⟩
  rw [show readAs _ _ _ = genI .ADDI 17 0 64 by decide] at haddi
  rw [show readAs _ _ _ = genI .ADDI 17 0 93 by decide] at haddi'
  rw [show readAs _ _ _ = genJ .JAL 0 0 by decide] at hjal
  exact ⟨hecall 0 (by decide) (by decide), haddi, hecall 8 (by decide) (by decide), haddi',
    hecall 16 (by decide) (by decide), hjal, trivial⟩

theorem mmu_after {k : ℕ} (hk : k < 4) : (after (k + 1)).mmu =
    (echo.mmu.writeMem (n := 1) 0x100 0x68).writeMem (n := 1) 0x101 0x69 := by
  obtain rfl | rfl | rfl | rfl : k = 0 ∨ k = 1 ∨ k = 2 ∨ k = 3 := by omega
  all_goals rfl

theorem sameBytes {k : ℕ} (hk : k ≤ 4) : MMU.SameBytes text echo.mmu (after k).mmu := by
  intro w hw b _ hb
  have hlow : b < 0x100 := by
    change w.toNat < 24 at hw
    omega
  cases k with
  | zero => rfl
  | succ k =>
    rw [mmu_after hk]
    exact (Bytes.write_of_lt _ _ (by omega)).trans (Bytes.write_of_lt _ _ (by omega))

theorem words_after {k : ℕ} (hk : k ≤ 4) : wordsOf (after k).pc (program.drop k).length ⊆ text := by
  have hend : (after k).pc.toNat + 4 * (program.drop k).length = 24 := by
    obtain rfl | rfl | rfl | rfl | rfl : k = 0 ∨ k = 1 ∨ k = 2 ∨ k = 3 ∨ k = 4 := by omega
    all_goals rfl
  rintro w ⟨j, hj, rfl⟩
  change (_ + _ : U32).toNat < 24
  rw [BitVec.toNat_add, BitVec.toNat_ofNat]
  omega

theorem code_after {k : ℕ} (hk : k ≤ 4) : (after k).mmu.CodeAt (after k).pc (program.drop k) := by
  obtain ⟨h₀, h₁, h₂, h₃, h₄, h₅, -⟩ := codeAt
  have hcode : echo.mmu.CodeAt (after k).pc (program.drop k) := by
    obtain rfl | rfl | rfl | rfl | rfl : k = 0 ∨ k = 1 ∨ k = 2 ∨ k = 3 ∨ k = 4 := by omega
    · exact ⟨h₀, h₁, h₂, h₃, h₄, h₅, trivial⟩
    · exact ⟨h₁, h₂, h₃, h₄, h₅, trivial⟩
    · exact ⟨h₂, h₃, h₄, h₅, trivial⟩
    · exact ⟨h₃, h₄, h₅, trivial⟩
    · exact ⟨h₄, h₅, trivial⟩
  have hsize : (after k).mmu.pmem_size_ = echo.mmu.pmem_size_ := by
    cases k with
    | zero => rfl
    | succ k => rw [mmu_after hk]; rfl
  exact hcode.congr hsize (TraceCache.sameWords_of_sameBytes (sameBytes hk) (words_after hk))

theorem step_after {k : ℕ} (hk : k < 4) : step.run (after k) = .ok () (after (k + 1)) := by
  have hcode := code_after hk.le
  obtain rfl | rfl | rfl | rfl : k = 0 ∨ k = 1 ∨ k = 2 ∨ k = 3 := by omega
  · rw [step_bare (by decide), hcode.1]
    rfl
  · rw [step_bare (by decide), hcode.1]
    rfl
  · rw [step_bare (by decide), hcode.1]
    rfl
  · rw [step_bare (by decide), hcode.1]
    rfl

theorem exits : step.run (after 4) = .error (.simException "Successfully finished!\n") (after 4) := by
  rw [step_bare (by decide), (code_after le_rfl).1]
  rfl

theorem runs {k : ℕ} (hk : k ≤ 4) : (iterate step k).run echo = .ok () (after k) := by
  induction k with
  | zero => rfl
  | succ k ih => exact iterate_add_eq_ok.mpr ⟨_, ih (Nat.le_of_succ_le hk), iterate_one.mpr (step_after hk)⟩

theorem reached {k : ℕ} {s : State} (hrun : (iterate step k).run echo = .ok () s) : k ≤ 4 ∧ s = after k := by
  induction k generalizing s with
  | zero =>
    cases hrun
    exact ⟨Nat.zero_le 4, rfl⟩
  | succ k ih =>
    obtain ⟨u, hu, hlast⟩ := iterate_add_eq_ok.mp hrun
    obtain ⟨hk, rfl⟩ := ih hu
    replace hlast := iterate_one.mp hlast
    rcases Nat.lt_or_eq_of_le hk with hk | rfl
    · rw [step_after hk] at hlast
      cases hlast
      exact ⟨hk, rfl⟩
    · rw [exits] at hlast
      cases hlast

theorem isTrace {k : ℕ} (hk : k ≤ 4) : IsTrace (program.drop k) := by
  obtain rfl | rfl | rfl | rfl | rfl : k = 0 ∨ k = 1 ∨ k = 2 ∨ k = 3 ∨ k = 4 := by omega
  · exact ⟨rfl, rfl, rfl, rfl, rfl, rfl⟩
  · exact ⟨rfl, rfl, rfl, rfl, rfl⟩
  · exact ⟨rfl, rfl, rfl, rfl⟩
  · exact ⟨rfl, rfl, rfl⟩
  · exact ⟨rfl, rfl⟩

theorem builds {host : Host} (hf : 6 ≤ host.fuel) {k : ℕ} (hk : k ≤ 4) :
    (after k).mmu.buildFrom host.fuel (after k).pc = .ok (program.drop k) := by
  refine MMU.buildFrom_of_codeAt (isTrace hk) (code_after hk) (le_trans ?_ hf)
  rw [List.length_drop]
  exact Nat.sub_le 6 k

theorem settled {host : Host} (hf : 6 ≤ host.fuel) (n : ℕ) : Settled host n ∅ echo := by
  have hv : ∀ s, (∃ k ≤ 4, s = after k) → s.mmu.isVirtualAddressing = false := by
    rintro s ⟨k, hk, rfl⟩
    cases k with
    | zero => decide
    | succ k => rw [mmu_after hk]; decide
  have hline : ∀ s, (∃ k ≤ 4, s = after k) → wordsOf s.pc (s.mmu.lineLength host.fuel s.pc) ⊆ text := by
    rintro s ⟨k, hk, rfl⟩
    rw [MMU.lineLength_of_ok (builds hf hk)]
    exact words_after hk
  refine settled_of_invariant hv hline ?_ (Set.empty_subset _) ⟨0, Nat.zero_le 4, rfl⟩ n
  rintro s s' ⟨k, hk, rfl⟩ hrun
  obtain ⟨hk', rfl⟩ := reached (iterate_add_eq_ok.mpr ⟨_, runs hk, iterate_one.mpr hrun⟩)
  refine ⟨⟨k + 1, hk', rfl⟩, fun w hw b hl hu ↦ ?_⟩
  rw [sameBytes hk' w hw b hl hu, sameBytes hk w hw b hl hu]

theorem safeSteps {host : Host} (hf : 6 ≤ host.fuel) : SafeSteps host echo := by
  intro k u insts hu hheads hb hsup
  obtain ⟨hk, rfl⟩ := reached hu
  rw [builds hf hk] at hb
  cases hb
  have hecall : genI .ECALL 0 0 0 ∈ program.drop k := by
    obtain rfl | rfl | rfl | rfl | rfl : k = 0 ∨ k = 1 ∨ k = 2 ∨ k = 3 ∨ k = 4 := by omega
    all_goals simp [program]
  exact absurd (hsup _ hecall) (by decide)

def host : Host := { idleHost 8 with layout := ⟨0, 0x1000⟩ }

theorem beside : host.layout.Beside echo.mmu.pmem_size_ := countdown.beside

theorem fuel_host (k : ℕ) : 6 ≤ (host.more k).fuel := Nat.le_add_right_of_le (by decide)

theorem builds_last {m : ℕ} {b : State} (h : LastHead echo 4 m b) :
    ∃ insts, b.mmu.buildFrom host.fuel b.pc = .ok insts := by
  obtain ⟨hm, rfl⟩ := reached h.reaches
  exact ⟨_, builds (fuel_host 0) hm⟩

theorem stops : ∃ k fuel u, (Sim.execute ⟨true, 0, 0⟩ (host.more k) fuel).run echo =
    .error (.simException "Successfully finished!\n") u := by
  have hset : ∀ n, Settled host n ∅ echo := settled (fuel_host 0)
  obtain ⟨m, b, hhead, hok, -⟩ := Sim.stops_of_steps (by decide : 4 < host.fuel) hset beside
    (runs le_rfl) exits
  obtain ⟨insts, hb⟩ := builds_last hhead
  obtain ⟨v, hstops, -⟩ := hok insts hb nofun
  have hcap : echo.trace_cache = .new 1 := rfl
  let opts : Options := ⟨true, 0, 0⟩
  have hmeets : Meets host opts.jit False echo echo :=
    .new le_rfl hcap (Settled.tame hset fun _ ↦ safeSteps (fuel_host 0)) ⟨rfl, rfl, rfl, rfl⟩ beside
  obtain ⟨k, n, u, -, hrun⟩ := Sim.ends_of_stops rfl hmeets hstops nofun
  exact ⟨k, n, u, hrun 0 0⟩

theorem transcript_echo : transcript step SingleStep.console 5 echo =
    [.read [0x68, 0x69], .write [0x68, 0x69]] := by
  have hread : SingleStep.console (after 0) = [.read [0x68, 0x69]] := by
    rw [SingleStep.console, (code_after (Nat.zero_le 4)).1]
    rfl
  have hwrite : SingleStep.console (after 2) = [.write [0x68, 0x69]] := by
    rw [SingleStep.console, (code_after (by decide : 2 ≤ 4)).1]
    rfl
  have hselect : SingleStep.console (after 1) = [] ∧ SingleStep.console (after 3) = [] := by
    rw [SingleStep.console, SingleStep.console, (code_after (by decide : 1 ≤ 4)).1,
      (code_after (by decide : 3 ≤ 4)).1]
    exact ⟨rfl, rfl⟩
  have hexit : SingleStep.console (after 4) = [] := by
    rw [SingleStep.console, (code_after le_rfl).1]
    rfl
  change transcript step SingleStep.console 5 (after 0) = _
  rw [transcript_next (step_after (by decide)), transcript_next (step_after (by decide)),
    transcript_next (step_after (by decide)), transcript_next (step_after (by decide)), transcript_last exits, hread,
    hselect.1, hwrite, hselect.2, hexit]
  rfl

end echo

namespace Sim

variable {host : Host} {s : State}

/-- Whatever the options and the size of the cache, the host has had what the machine does to it that
takes single steps, no byte twice and none left out: after each round, at the limit and at a stop. -/
theorem exchanges_step (opts : Options) (hset : ∀ n, Settled host n ∅ s)
    (hsafe : opts.jit = true → SafeSteps host s) (hside : host.layout.Beside s.mmu.pmem_size_) {cap : ℕ}
    (hcap : 1 ≤ cap) :
    (∀ n s', Rounds opts host { s with trace_cache := .new cap } n s' →
      ∃ m t, n ≤ m ∧ (Simulation.iterate step m).run s = .ok () t ∧ Settled.Seen s m s'.world) ∧
    (∀ fuel s', (execute opts host fuel).run { s with trace_cache := .new cap } = .ok () s' →
      ∃ m t, (Simulation.iterate step m).run s = .ok () t ∧ Settled.Seen s m s'.world) ∧
    ∀ fuel e s', (execute opts host fuel).run { s with trace_cache := .new cap } = .error e s' →
      e ≠ .outOfFuel → ∃ m t, (Simulation.iterate step m).run s = .ok () t ∧
        ((t.mmu.buildFrom host.fuel t.pc = .error e ∧ Settled.Seen s m s'.world) ∨
          ∃ u, step.run t = .error e u ∧ Settled.Seen s (m + 1) s'.world) := by
  have hmeets : Meets host opts.jit False { s with trace_cache := .new cap } s :=
    .new hcap rfl (Settled.tame hset hsafe) ⟨rfl, rfl, rfl, rfl⟩ hside
  have hzero : Rounds opts host { s with trace_cache := .new cap } 0 { s with trace_cache := .new cap } := .zero
  have hiterated : ∀ n s', (Simulation.iterate (iteration opts host) n).run { s with trace_cache := .new cap } =
      .ok () s' → ∃ m t, n ≤ m ∧ (Simulation.iterate step m).run s = .ok () t ∧ Settled.Seen s m s'.world := by
    intro n s' hrun
    obtain ⟨m, t, hle, hrounds, h⟩ := hmeets.iterated hrun
    obtain ⟨k, u, hle', hsteps, -, hst, -⟩ := Settled.iterations hset hrounds
    refine ⟨k, u, hle.trans hle', hsteps, ?_⟩
    rw [h.sameMachine.world, ← hst.world]
    exact Settled.Always.seen ⟨∅, hset⟩ hsteps
  refine ⟨fun n s' hr ↦ hiterated n s' hr.iterate, fun fuel s' hrun ↦ ?_, fun fuel e s' hrun he ↦ ?_⟩
  · have hrounds := execute_rounds hzero fuel
    rw [hrun] at hrounds
    obtain ⟨n, u, hr, hlast, -⟩ := hrounds
    obtain ⟨m, t, -, hsteps, hseen⟩ := hiterated (n + 1) s'
      (iterate_add_eq_ok.mpr ⟨u, hr.iterate, iterate_one.mpr hlast⟩)
    exact ⟨m, t, hsteps, hseen⟩
  · obtain ⟨t', hstops, hst⟩ := stops_of_execute hmeets hrun he
    rw [hst.world]
    exact Settled.seen_of_stops hset hstops

/-- The program prints what it reads, with the translator on and a cache for one trace. -/
theorem exchanges_step_echo : ∃ k fuel s',
    (execute ⟨true, 0, 0⟩ (echo.host.more k) fuel).run echo =
      .error (.simException "Successfully finished!\n") s' ∧
    transcript step SingleStep.console 5 echo = [.read [0x68, 0x69], .write [0x68, 0x69]] ∧
    Settled.Seen echo 5 s'.world ∧ s'.world.stdout = [0x68, 0x69] ∧ s'.world.stdin = [] := by
  obtain ⟨k, fuel, s', hrun⟩ := echo.stops
  have hfuel := echo.fuel_host k
  obtain ⟨-, -, hstops⟩ := exchanges_step ⟨true, 0, 0⟩ (echo.settled hfuel) (fun _ ↦ echo.safeSteps hfuel)
    echo.beside (le_refl 1)
  obtain ⟨m, t, hsteps, hseen⟩ := hstops fuel _ s' hrun nofun
  obtain ⟨hm, rfl⟩ := echo.reached hsteps
  rcases hseen with ⟨hb, -⟩ | ⟨u, hthrow, hseen⟩
  · rw [echo.builds hfuel hm] at hb
    cases hb
  · rcases Nat.lt_or_eq_of_le hm with hm | rfl
    · rw [echo.step_after hm] at hthrow
      cases hthrow
    · have houtput := hseen.output
      have hinput := hseen.input
      rw [echo.transcript_echo] at houtput hinput
      refine ⟨k, fuel, s', hrun, echo.transcript_echo, hseen, houtput, ?_⟩
      exact (List.append_right_inj [0x68, 0x69]).mp hinput

end Sim

end RiscvSim
