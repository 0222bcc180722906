import RiscvSim.OptionGrammar
import RiscvSim.Loader
import RiscvSim.ManualRuns

namespace RiscvSim

open Isa Ir State Results Simulation Options Sim

/-- How the process ends: with `exit(0)` behind the help, with what the handler of `main` prints, or
in the state that `Sim::execute` leaves, with the exception it has caught. -/
inductive Ended
  | exit
  | caught (what : String)
  | finished (s : State) (stop : Option String)
  | undefinedBehaviour
  | outOfFuel

namespace Ended

def ofHalt : Halt → Ended
  | .exit => .exit
  | .invalid_argument what | .out_of_range what => .caught what
  | .undefinedBehaviour => .undefinedBehaviour
  | .outOfFuel => .outOfFuel

def ofLoadError : LoadError → Ended
  | .runtime_error what | .stop (.simException what) => .caught what
  | .stop .undefinedBehaviour => .undefinedBehaviour
  | .stop .outOfFuel => .outOfFuel

def ofRun : EStateM.Result Stop State Unit → Ended
  | .ok _ s => .finished s none
  | .error (.simException what) s => .finished s (some what)
  | .error .undefinedBehaviour _ => .undefinedBehaviour
  | .error .outOfFuel _ => .outOfFuel

end Ended

/-- `State::mmu`: it is made before `main` runs, while the options have their defaults. -/
def staticMmu (pmem : ℕ → U8) : MMU where
  instTLB_ := .new (Var.default_value .itlb_size).toNat
  dataTLB_ := .new (Var.default_value .dtlb_size).toNat
  pmem_size_ := (Var.default_value .mem_pages * MMU.pagesize.setWidth 64).toNat
  pmem_ := pmem
  satp := 0x17#32

theorem staticMmu_size (pmem : ℕ → U8) : (staticMmu pmem).pmem_size_ = 2 ^ 19 :=
  (by decide : (128#64 * 4096#64).toNat = 2 ^ 19)

def staticCache : LRUCache U32 Trace := .new (Var.default_value .cache_size).toNat

/-- What `Elf_reader::init` has of a name: the file with its headers and entry, or why it throws. -/
abbrev Files := Option String → Except String (List U8 × List Phdr × U32)

def main (files : Files) (host : Host) (pmem : ℕ → U8) (world : World) (fuel : ℕ) (argv : List String) :
    Ended :=
  match ParseOptions fuel argv with
  | .error h _ => .ofHalt h
  | .ok _ p =>
    match files (p.data_ .elf_file) with
    | .error what => .caught what
    | .ok (file, phdrs, entry) =>
      match boot file phdrs entry (staticMmu pmem) staticCache world with
      | .error e => .ofLoadError e
      | .ok s => .ofRun ((Sim.execute p.options host fuel).run s)

theorem memcpy_pmem (m : MMU) (ptr : ℕ) (ws : List U32) :
    ∃ pmem, m.memcpy ptr ws = { m with pmem_ := pmem } := by
  induction ws generalizing m ptr with
  | nil => exact ⟨m.pmem_, rfl⟩
  | cons w ws ih =>
    obtain ⟨pmem, h⟩ := ih (m.writeMem (n := 4) ptr w) (ptr + 4)
    exact ⟨pmem, h⟩

theorem copySegments_pmem {commands : List (List U32)} {seg_va : List U32} {m m' : MMU}
    (h : copySegments commands seg_va m = .ok m') : ∃ pmem, m' = { m with pmem_ := pmem } := by
  induction seg_va generalizing commands m with
  | nil =>
    rw [copySegments] at h
    cases h
    exact ⟨_, rfl⟩
  | cons va seg_va ih =>
    cases commands with
    | nil => cases h
    | cons command commands =>
      rw [copySegments] at h
      split at h
      · cases h
      · obtain ⟨ptr, -, hrest⟩ := bind_eq_ok.mp h
        obtain ⟨pmem, hcopy⟩ := memcpy_pmem m ptr command
        rw [hcopy] at hrest
        obtain ⟨pmem', hrest⟩ := ih hrest
        exact ⟨pmem', hrest⟩

theorem boot_eq_ok {file : List U8} {phdrs : List Phdr} {entry : U32} {mmu : MMU}
    {trace_cache : LRUCache U32 Trace} {world : World} {s : State}
    (h : boot file phdrs entry mmu trace_cache world = .ok s) : s.trace_cache = trace_cache ∧
      s.executed_insts = 0 ∧ s.pc = entry ∧ ∃ pmem, s.mmu = { mmu with pmem_ := pmem } := by
  obtain ⟨⟨cmds, seg_va, pc⟩, hload, hnew⟩ := bind_eq_ok.mp h
  obtain ⟨cmds', -, hret⟩ := bind_eq_ok.mp hload
  cases hret
  dsimp only at hnew
  split at hnew
  · next s' hs =>
    cases hnew
    obtain ⟨mmu', hcopy, hret⟩ := bind_eq_ok.mp hs
    cases hret
    exact ⟨rfl, rfl, rfl, copySegments_pmem hcopy⟩
  · cases hnew

theorem Layout.Apart.beside {layout : Layout} (h : layout.Apart) (size : ℕ) : layout.Beside size := by
  intro va _
  have hva := h va 0
  rwa [show (0 : U32).signExtend 64 = 0#64 by decide, BitVec.add_zero, BitVec.add_comm] at hva

theorem MMU.CodeAt.inside {mmu : MMU} (hsize : mmu.pmem_size_ ≤ 2 ^ 32) {va : U32} {insts : List Inst}
    (h : mmu.CodeAt va insts) (hne : insts ≠ []) : va.toNat + 4 * insts.length < mmu.pmem_size_ := by
  induction insts generalizing va with
  | nil => exact absurd rfl hne
  | cons inst rest ih =>
    obtain ⟨hi, hrest⟩ := h
    have hlt := MMU.fetchInst_lt hi
    cases rest with
    | nil => exact hlt
    | cons inst' rest =>
      have hnext := ih hrest (List.cons_ne_nil _ _)
      rw [BitVec.toNat_add, show (4 : U32).toNat = 4 from rfl, Nat.mod_eq_of_lt (by omega)] at hnext
      rw [List.length_cons]
      omega

namespace OnText

variable {host : Host} {opts : Options} {text : Set U32} {s u : State}

theorem prompt (h : OnText text s) (hjit : opts.jit = false) (hsize : s.mmu.pmem_size_ ≤ 2 ^ 32)
    (hfuel : s.mmu.pmem_size_ ≤ host.fuel) {v v₁ : State}
    (hmax : v.executed_insts.toNat + s.mmu.pmem_size_ < 2 ^ 64) (hmeets : Meets host opts.jit True v s)
    (hsound : Sound opts.jit IsTrace v) {addr : ℕ} {trace : Trace}
    (hb : Sim.Begins opts host v addr trace v₁) : Sim.Prompt host v trace := by
  obtain ⟨u, hrun⟩ := h.advances hjit hmeets hsize hfuel
  have hnone := hb.no_code hjit hsound (Sim.fetches_isTrace host v)
  have hcode : ∀ code, trace.exec_trace_ ≠ some code := by
    intro code hc
    rw [hnone] at hc
    cases hc
  obtain ⟨words, hpaired⟩ := hmeets
  have hcurrent : Current host opts.jit words v := hpaired.current
  obtain ⟨hv, -⟩ := hpaired.bare
  rcases hcurrent.begins opts hv with ⟨e, c, -, hfail⟩ | ⟨addr', c, trace', hbuild, hb', -⟩
  · rw [hrun] at hfail
    cases hfail
  · obtain ⟨-, rfl, -⟩ := hb.unique hb'
    rw [hpaired.same.mmu, hpaired.same.pc] at hbuild
    obtain ⟨ht, hc⟩ := MMU.buildFrom_ok hbuild
    refine ⟨⟨fun _ ↦ ?_, fun code hc ↦ absurd hc (hcode code)⟩, .inl hnone,
      fun code hc ↦ absurd hc (hcode code), ?_⟩
    · rintro ⟨inst, hlast, hfunc⟩
      exact Rv32i.not_fence (h.holds.covered h.pc ht hc inst (List.mem_of_getLast? hlast)) hfunc
    · have hin := hc.inside hsize ht.ne_nil
      omega

theorem executed (h : OnText text s) (hmeets : Meets host opts.jit True u s) {fuel : ℕ} {v : State} :
    ((Sim.execute opts host fuel).run u = .ok () v → LimitReached opts v ∧ ∃ m, 
      Rv32i.steps m s.machine = some v.machine ∧ SameMachine (s.withMachine v.machine) v ∧
      v.executed_insts = s.executed_insts + BitVec.ofNat 64 m) ∧
    ∀ e, (Sim.execute opts host fuel).run u = .error e v → e = .outOfFuel := by
  have hall := Sim.execute_rounds (.zero : Sim.Rounds opts host u 0 u) fuel
  refine ⟨fun hrun ↦ ?_, fun e hrun ↦ ?_⟩
  · rw [hrun] at hall
    obtain ⟨n, w, hr, hlast, hlim⟩ := hall
    have hiter : (iterate (Sim.iteration opts host) (n + 1)).run u = .ok () v :=
      iterate_add_eq_ok.mpr ⟨w, hr.iterate, iterate_one.mpr hlast⟩
    obtain ⟨k, t, -, hk, ht⟩ := hmeets.iterated hiter
    obtain ⟨m, -, hmanual, hsame, hcount, -⟩ := h.iterated hk
    have hmachine : t.machine = v.machine := by
      rw [machine, machine, ht.sameMachine.regs, ht.sameMachine.pc, ht.sameMachine.mmu]
    rw [hmachine] at hmanual hsame
    exact ⟨hlim, m, hmanual, hsame.trans ht.sameMachine.symm, ht.count.trans hcount⟩
  · by_contra hne
    obtain ⟨t', hstop, -⟩ := Sim.stops_of_execute hmeets hrun hne
    exact hne (h.stops hstop).1

/-- Without the translator the loop comes to a limit that its counter can get to. -/
theorem ends (h : OnText text s) (hjit : opts.jit = false) (hsize : s.mmu.pmem_size_ ≤ 2 ^ 32)
    (hfuel : s.mmu.pmem_size_ ≤ host.fuel) (hlim : opts.max_insts ≠ 0)
    (hmax : opts.max_insts.toNat + s.mmu.pmem_size_ ≤ 2 ^ 64) (hapart : host.layout.Apart) {cap : ℕ}
    (hcap : 1 ≤ cap) (hcache : s.trace_cache = .new cap) (hzero : s.executed_insts = 0) {fuel : ℕ}
    (hle : opts.max_insts.toNat ≤ fuel) {v : State} :
    (Sim.execute opts host fuel).run s ≠ .error .outOfFuel v := by
  intro hrun
  have hsafe : opts.jit = true → SafeSteps host s := by
    intro hj
    rw [hjit] at hj
    cases hj
  have hmeets := h.meets hsafe (hapart.beside _) hcap
  rw [← hcache] at hmeets
  -- A round comes to a state on the text again, where another one can begin.
  have hround : ∀ n t, Sim.Rounds opts host s n t → ∃ w, OnText text w ∧
      w.mmu.pmem_size_ = s.mmu.pmem_size_ ∧ Meets host opts.jit True t w := by
    intro n t hr
    obtain ⟨k, w, -, hk, hw⟩ := hr.meets hmeets
    obtain ⟨-, -, -, hsame, -, htext⟩ := h.iterated hk
    exact ⟨w, htext, by rw [← hsame.mmu]; rfl, hw⟩
  have hstart : s.executed_insts < opts.max_insts := by
    rw [hzero]
    bv_omega
  have hprompt : ∀ n t addr trace t₁, Sim.Rounds opts host s n t → Sim.Begins opts host t addr trace t₁ →
      Sim.Prompt host t trace := by
    intro n t addr trace t₁ hr hb
    obtain ⟨w, hw, heq, hm⟩ := hround n t hr
    have hlt : t.executed_insts.toNat < opts.max_insts.toNat := hr.under_limit hstart
    rw [← heq] at hsize hfuel hmax
    exact hw.prompt hjit hsize hfuel (by omega) hm (hr.sound hcache) hb
  have hall := Sim.execute_rounds (.zero : Sim.Rounds opts host s 0 s) fuel
  rw [hrun] at hall
  rcases hall with ⟨m, t, hr, hlast⟩ | ⟨-, hr⟩
  · obtain ⟨w, hw, heq, hm⟩ := hround m t hr
    rw [← heq] at hsize hfuel
    obtain ⟨u, hu⟩ := hw.advances hjit hm hsize hfuel
    rw [hu] at hlast
    cases hlast
  · have hle' := hr.counted hcache hapart hprompt
    have hlt : v.executed_insts.toNat < opts.max_insts.toNat := hr.under_limit hstart
    omega

end OnText

section

variable {files : Files} {host : Host} {pmem : ℕ → U8} {world : World} {argv : List String}
  {l : List Setting} {file : List U8} {phdrs : List Phdr} {entry : U32} {s : State} {text : Set U32}

theorem main_eq {p : Parser} {fuel : ℕ} (hparse : ParseOptions fuel argv = .ok () p)
    (hfile : files (p.data_ .elf_file) = .ok (file, phdrs, entry))
    (hboot : boot file phdrs entry (staticMmu pmem) staticCache world = .ok s) :
    main files host pmem world fuel argv = .ofRun ((Sim.execute p.options host fuel).run s) := by
  simp only [main, hparse, hfile, hboot]

/-- The program as a whole, from its arguments and the file they name to its end: under every accepted
setting of its options it runs the manual's machine on the image, in 128 pages with caches of 256 entries
whatever sizes are asked for, and ends at the limit alone, which without the translator it comes to. -/
theorem main_manual (hargs : Parses argv.tail l none)
    (hfile : files (assign l Var.default_value .elf_file) = .ok (file, phdrs, entry))
    (hboot : boot file phdrs entry (staticMmu pmem) staticCache world = .ok s) (htext : OnText text s)
    (hsafe : assign l Var.default_value .jit = true → SafeSteps host s) (hapart : host.layout.Apart) :
    (∀ fuel, argv.length < fuel → main files host pmem world fuel argv = .outOfFuel ∨
      ∃ s' m, main files host pmem world fuel argv = .finished s' none ∧
        Rv32i.steps m s.machine = some s'.machine ∧ SameMachine (s.withMachine s'.machine) s' ∧
        s'.executed_insts = BitVec.ofNat 64 m ∧ assign l Var.default_value .max_insts ≠ 0 ∧
        assign l Var.default_value .max_insts ≤ s'.executed_insts) ∧
    (assign l Var.default_value .jit = false → assign l Var.default_value .max_insts ≠ 0 →
      (assign l Var.default_value .max_insts).toNat + 2 ^ 19 ≤ 2 ^ 64 → 2 ^ 19 ≤ host.fuel →
      ∃ N, ∀ fuel, N ≤ fuel → main files host pmem world fuel argv ≠ .outOfFuel) := by
  obtain ⟨p, hdata, hparse⟩ := run_of_parses hargs
  obtain ⟨hcache, hzero, -, pmem', hmmu⟩ := boot_eq_ok hboot
  have hsize : s.mmu.pmem_size_ = 2 ^ 19 := by
    rw [hmmu]
    exact staticMmu_size pmem
  rw [← hdata] at hfile hsafe ⊢
  have hmain : ∀ fuel, argv.length < fuel → main files host pmem world fuel argv =
      .ofRun ((Sim.execute p.options host fuel).run s) := fun fuel hfuel ↦
    main_eq (hparse fuel hfuel) hfile hboot
  have hsafe' : p.options.jit = true → SafeSteps host s := hsafe
  have hcap : 1 ≤ (Var.default_value .cache_size).toNat := by decide
  have hmeets := htext.meets hsafe' (hapart.beside _) hcap
  rw [show LRUCache.new _ = s.trace_cache from hcache.symm] at hmeets
  refine ⟨fun fuel hfuel ↦ ?_, fun hjit hlim hmax hbuild ↦
    ⟨max (argv.length + 1) p.options.max_insts.toNat, fun fuel hfuel ↦ ?_⟩⟩
  · rw [hmain fuel hfuel]
    cases hrun : (Sim.execute p.options host fuel).run s with
    | ok u s' =>
      obtain ⟨hreached, m, hsteps, hsame, hcount⟩ := (htext.executed hmeets).1 hrun
      rw [hzero] at hcount
      exact .inr ⟨s', m, rfl, hsteps, hsame, hcount.trans (BitVec.zero_add _), hreached⟩
    | error e s' =>
      obtain rfl := (htext.executed hmeets).2 e hrun
      exact .inl rfl
  · rw [hmain fuel (by omega)]
    cases hrun : (Sim.execute p.options host fuel).run s with
    | ok u s' => nofun
    | error e s' =>
      have hjit' : p.options.jit = false := hjit
      obtain rfl := (htext.executed hmeets).2 e hrun
      exact absurd hrun (htext.ends hjit' (by omega) (by omega) hlim (by rw [hsize]; exact hmax) hapart
        hcap hcache hzero (by omega))

end

def loopFile : List U8 := [0x93, 0x00, 0x50, 0x00, 0x23, 0x20, 0x10, 0x04, 0x6f, 0xf0, 0x9f, 0xff]

def loopFiles : Files := fun name ↦
  if name = some "loop" then .ok (loopFile, [⟨0, 0, 12, 12⟩], 0) else .error "Elf reader failed"

theorem loop_boots (world : World) : ∃ s,
    boot loopFile [⟨0, 0, 12, 12⟩] 0 (staticMmu fun _ ↦ 0) staticCache world = .ok s ∧
      s.mmu.pmem_ = copyAll loopFile [⟨0, 0, 12, 12⟩] fun _ ↦ 0 := by
  have hwell : WellFormed loopFile (staticMmu fun _ ↦ 0).pmem_size_ [⟨0, 0, 12, 12⟩] := by
    rw [staticMmu_size]
    exact ⟨by decide, by decide, List.pairwise_singleton .., by decide⟩
  have hfits : ∀ phdr ∈ [(⟨0, 0, 12, 12⟩ : Phdr)], phdr.p_filesz.toNat < 2 ^ 31 ∧
      phdr.Fits (staticMmu fun _ ↦ 0).pmem_size_ := by
    rw [staticMmu_size]
    rintro phdr (_ | ⟨_, ⟨⟩⟩)
    exact ⟨by decide, by decide, by decide⟩
  exact (boot_ok_iff (staticMmu fun _ ↦ 0) 0 staticCache world hwell).mpr ⟨hfits, rfl⟩

theorem main_manual_loop :
    let main := main loopFiles (apartHost (2 ^ 19)) (fun _ ↦ 0) ⟨[], [], fun _ ↦ ⟨0, 0, 0⟩, 0⟩
    ∃ fuel m, ∃ s s' : State, main fuel ["sim", "-mem-pages", "1", "-elf", "loop", "-max-insts", "1000"] =
        .finished s' none ∧ s.mmu.pmem_size_ = 2 ^ 19 ∧ Rv32i.steps m s.machine = some s'.machine ∧
      s'.executed_insts = BitVec.ofNat 64 m ∧ 1000 ≤ s'.executed_insts := by
  intro main
  let world : World := ⟨[], [], fun _ ↦ ⟨0, 0, 0⟩, 0⟩
  let l : List Setting := [⟨.mem_pages, 1⟩, ⟨.elf_file, some "loop"⟩, ⟨.max_insts, 1000⟩]
  let argv := ["sim", "-mem-pages", "1", "-elf", "loop", "-max-insts", "1000"]
  have hargs : Parses argv.tail l none := by
    refine .setting (v := .mem_pages) (.unsigned (w := "1") (by decide)) ?_
    refine .setting (v := .elf_file) (.charPtr "loop") ?_
    exact .setting (v := .max_insts) (.unsigned (w := "1000") (by decide)) .done
  have hfile : loopFiles (assign l Var.default_value .elf_file) = .ok (loopFile, [⟨0, 0, 12, 12⟩], 0) := by decide
  obtain ⟨s, hboot, hpmem⟩ := loop_boots world
  obtain ⟨-, -, hpc, pmem, hmmu⟩ := boot_eq_ok hboot
  have hsize : s.mmu.pmem_size_ = 2 ^ 19 := by
    rw [hmmu]
    exact staticMmu_size _
  have hbare : s.mmu.isVirtualAddressing = false := by
    rw [hmmu]
    exact (by decide : ((0x17#32 : U32) >>> 31 != 0#32) = false)
  have hcopied : ∀ b < 12, copyAll loopFile [⟨0, 0, 12, 12⟩] (fun _ ↦ 0) b =
      (Trace.storeLoop (.new 1)).mmu.pmem_ b := by decide
  have htext : OnText storeLoop.text s := by
    refine storeLoop.onText hbare (by rw [hsize]; decide) hpc fun b hb ↦ ?_
    rw [hpmem]
    exact hcopied b hb
  have hsafe : assign l Var.default_value .jit = true → SafeSteps (apartHost (2 ^ 19)) s :=
    fun h ↦ absurd h (by decide)
  obtain ⟨hruns, hends⟩ := main_manual hargs hfile hboot htext hsafe (apart_apartHost _)
  obtain ⟨N, hN⟩ := hends (by decide) (by decide) (by decide) le_rfl
  rcases hruns (max N 8) (lt_max_of_lt_right (by decide)) with hout | ⟨s', m, hmain, hsteps, -, hcount, -, hmax⟩
  · exact absurd hout (hN _ (le_max_left _ _))
  · exact ⟨max N 8, m, s, s', hmain, hsize, hsteps, hcount, hmax⟩

end RiscvSim
