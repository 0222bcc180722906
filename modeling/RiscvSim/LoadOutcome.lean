import RiscvSim.Program

namespace RiscvSim

open Results Options

namespace Results

variable {ε α β : Type}

theorem mapM_of_elim {f : α → Except ε β} {fault : α → Option ε} {g : α → β}
    (h : ∀ a, f a = (fault a).elim (.ok (g a)) .error) (l : List α) :
    l.mapM f = (l.findSome? fault).elim (.ok (l.map g)) .error := by
  induction l with
  | nil => rfl
  | cons a l ih =>
    rw [List.mapM_cons, h a, ih, List.findSome?_cons]
    cases fault a with
    | some e => rfl
    | none => cases l.findSome? fault <;> rfl

end Results

namespace Phdr

def count (file : List U8) (phdr : Phdr) : ℕ :=
  min phdr.p_filesz.toNat (file.length - phdr.p_offset.toNat)

/-- What is wrong with a segment when it is read: its bytes do not fit into `buf`, or are not all there,
or are too many for an `int`. -/
def readError (file : List U8) (phdr : Phdr) : Option LoadError :=
  if 4 * phdr.p_memsz.toNat < phdr.count file then some (.stop .undefinedBehaviour)
  else if phdr.count file < phdr.p_filesz.toNat ∨ 2 ^ 31 ≤ phdr.p_filesz.toNat then
    some (.runtime_error "Elf reader failed")
  else none

def copyError (size : ℕ) (phdr : Phdr) : Option Stop :=
  if size < phdr.p_vaddr.toNat + 4 * phdr.p_memsz.toNat then
    some (.simException "Not enough memory to load segment")
  else if size ≤ phdr.p_vaddr.toNat + 1 then some (.simException "Address is out of memory")
  else none

end Phdr

/-- All segments are read before the first of them is copied. -/
def loadError (file : List U8) (size : ℕ) (phdrs : List Phdr) : Option LoadError :=
  (phdrs.findSome? (Phdr.readError file)).or ((phdrs.findSome? (Phdr.copyError size)).map .stop)

section

variable {file : List U8} {phdr : Phdr} {phdrs : List Phdr} {mmu : MMU}

theorem count_le (file : List U8) (phdr : Phdr) : phdr.count file ≤ phdr.p_filesz.toNat := Nat.min_le_left _ _

theorem read_sz_wrong_iff : ((BitVec.ofNat 32 (phdr.count file)).toInt < 0 ∨
      phdr.p_filesz ≠ BitVec.ofNat 32 (phdr.count file)) ↔
    phdr.count file < phdr.p_filesz.toNat ∨ 2 ^ 31 ≤ phdr.p_filesz.toNat := by
  have hle := count_le file phdr
  have hlt : phdr.count file < 2 ^ 32 := lt_of_le_of_lt hle phdr.p_filesz.isLt
  have hsign := toInt_ofNat_nonneg hlt
  have heq : phdr.p_filesz = BitVec.ofNat 32 (phdr.count file) ↔ phdr.p_filesz.toNat = phdr.count file := by
    rw [← BitVec.toNat_inj, BitVec.toNat_ofNat, Nat.mod_eq_of_lt hlt]
  rw [ne_eq, heq]
  omega

theorem bufBytes_eq_content (h : phdr.count file = phdr.p_filesz.toNat) :
    Elf_reader.bufBytes file phdr (phdr.count file) = phdr.content file := by
  funext k
  rw [Elf_reader.bufBytes, Phdr.content, h]

theorem loadSegment_eq_elim (file : List U8) (phdr : Phdr) : Elf_reader.loadSegment file phdr =
    (phdr.readError file).elim (.ok (segmentWords file phdr)) .error := by
  have hcount : min phdr.p_filesz.toNat (file.length - phdr.p_offset.toNat) = phdr.count file := rfl
  simp only [Elf_reader.loadSegment, hcount]
  rw [Phdr.readError]
  by_cases hbuf : 4 * phdr.p_memsz.toNat < phdr.count file
  · rw [if_pos hbuf, if_pos hbuf]
    rfl
  · rw [if_neg hbuf, if_neg hbuf]
    by_cases hwrong : phdr.count file < phdr.p_filesz.toNat ∨ 2 ^ 31 ≤ phdr.p_filesz.toNat
    · rw [if_pos hwrong, if_pos (read_sz_wrong_iff.mpr hwrong)]
      rfl
    · have hle := count_le file phdr
      have hall : phdr.count file = phdr.p_filesz.toNat := by omega
      rw [if_neg hwrong, if_neg fun h ↦ hwrong (read_sz_wrong_iff.mp h), Option.elim_none, segmentWords,
        bufBytes_eq_content hall]

theorem copySegments_eq_elim (file : List U8) (phdrs : List Phdr) (mmu : MMU) :
    State.copySegments (phdrs.map (segmentWords file)) (phdrs.map (·.p_vaddr)) mmu =
      (phdrs.findSome? (Phdr.copyError mmu.pmem_size_)).elim
        (.ok { mmu with pmem_ := copyAll file phdrs mmu.pmem_ }) .error := by
  induction phdrs generalizing mmu with
  | nil => rfl
  | cons phdr phdrs ih =>
    rw [List.map_cons, List.map_cons, State.copySegments, segmentWords, words_length,
      MMU.getMemPtr_setWidth, List.findSome?_cons, Phdr.copyError]
    by_cases hroom : mmu.pmem_size_ < phdr.p_vaddr.toNat + 4 * phdr.p_memsz.toNat
    · rw [if_pos hroom, if_pos hroom]
      rfl
    · rw [if_neg hroom, if_neg hroom]
      by_cases hfirst : mmu.pmem_size_ ≤ phdr.p_vaddr.toNat + 1
      · rw [if_pos hfirst, if_pos hfirst]
        rfl
      · rw [if_neg hfirst, if_neg hfirst]
        change State.copySegments _ _ (mmu.memcpy _ _) = _
        rw [memcpy_words]
        exact ih _

end

/-- The state that `main` runs in: zeroed registers but for a stack pointer two pages below the end of the
memory, and in each byte of it what the last segment to be copied there has for it, zeros behind the
bytes of the file, or what it held before. -/
structure Booted (file : List U8) (phdrs : List Phdr) (entry : U32) (mmu : MMU)
    (trace_cache : LRUCache U32 Trace) (world : World) (s : State) : Prop where
  cache : s.trace_cache = trace_cache
  fixed : s.mmu = { mmu with pmem_ := s.mmu.pmem_ }
  regs : s.regs = Regs.fill0.set Ir.Reg.sp ((BitVec.ofNat 64 mmu.pmem_size_ - 8192).setWidth 32)
  pc : s.pc = entry
  executed_insts : s.executed_insts = 0
  host : s.world = world
  segments : ∀ b before phdr after, phdrs = before ++ phdr :: after → phdr.Covers b →
    (∀ q ∈ after, ¬ q.Covers b) → s.mmu.pmem_ b = phdr.content file (b - phdr.p_vaddr.toNat)
  beside : ∀ b, (∀ phdr ∈ phdrs, ¬ phdr.Covers b) → s.mmu.pmem_ b = mmu.pmem_ b

section

variable (file : List U8) (phdrs : List Phdr) (entry : U32) (mmu : MMU)
  (trace_cache : LRUCache U32 Trace) (world : World)

def State.loaded : State where
  trace_cache := trace_cache
  mmu := { mmu with pmem_ := copyAll file phdrs mmu.pmem_ }
  regs := Regs.fill0.set Ir.Reg.sp ((BitVec.ofNat 64 mmu.pmem_size_ - 8192).setWidth 32)
  pc := entry
  executed_insts := 0
  world := world

theorem new_eq_elim : State.new (phdrs.map (segmentWords file)) (phdrs.map (·.p_vaddr)) entry mmu
    trace_cache world = (phdrs.findSome? (Phdr.copyError mmu.pmem_size_)).elim
      (.ok (.loaded file phdrs entry mmu trace_cache world)) .error := by
  unfold State.new
  rw [copySegments_eq_elim file phdrs mmu]
  cases phdrs.findSome? (Phdr.copyError mmu.pmem_size_) <;> rfl

theorem boot_eq_elim : boot file phdrs entry mmu trace_cache world =
    (loadError file mmu.pmem_size_ phdrs).elim
      (.ok (.loaded file phdrs entry mmu trace_cache world)) .error := by
  have hread := mapM_of_elim (loadSegment_eq_elim file) phdrs
  have hnew := new_eq_elim file phdrs entry mmu trace_cache world
  rw [boot, Elf_reader.load, hread, loadError]
  cases phdrs.findSome? (Phdr.readError file) with
  | some e => rfl
  | none =>
    dsimp only [Option.elim_none, bind, Except.bind, pure, Except.pure]
    rw [hnew]
    cases phdrs.findSome? (Phdr.copyError mmu.pmem_size_) <;> rfl

theorem booted_loaded : Booted file phdrs entry mmu trace_cache world
    (.loaded file phdrs entry mmu trace_cache world) where
  cache := rfl
  fixed := rfl
  regs := rfl
  pc := rfl
  executed_insts := rfl
  host := rfl
  segments := by
    rintro b before phdr after rfl hc hafter
    exact copyAll_last hc hafter mmu.pmem_
  beside b h := copyAll_of_not_covers h mmu.pmem_

end

variable {file : List U8} {phdrs : List Phdr} {entry : U32} {mmu : MMU}
  {trace_cache : LRUCache U32 Trace} {world : World} {s t : State}

theorem Booted.unique (h : Booted file phdrs entry mmu trace_cache world s)
    (h' : Booted file phdrs entry mmu trace_cache world t) : s = t := by
  have hmem : s.mmu.pmem_ = t.mmu.pmem_ := by
    funext b
    by_cases hc : ∃ phdr ∈ phdrs, phdr.Covers b
    · obtain ⟨before, phdr, after, hsplit, hcovers, hafter⟩ := exists_last_covers hc
      rw [h.segments b before phdr after hsplit hcovers hafter,
        h'.segments b before phdr after hsplit hcovers hafter]
    · have hnone : ∀ phdr ∈ phdrs, ¬ phdr.Covers b := fun phdr hp hcovers ↦ hc ⟨phdr, hp, hcovers⟩
      rw [h.beside b hnone, h'.beside b hnone]
  have hmmu : s.mmu = t.mmu := by rw [h.fixed, h'.fixed, hmem]
  have hregs := h.regs.trans h'.regs.symm
  have hcache := h.cache.trans h'.cache.symm
  have hpc := h.pc.trans h'.pc.symm
  have hinsts := h.executed_insts.trans h'.executed_insts.symm
  have hworld := h.host.trans h'.host.symm
  cases s
  cases t
  simp only [State.mk.injEq]
  exact ⟨hcache, hmmu, hregs, hpc, hinsts, hworld⟩

/-- Loading any file by any headers: it fails with the first error of reading, or else with the first one
of copying, and otherwise makes one state. -/
theorem boot_outcome (file : List U8) (phdrs : List Phdr) (entry : U32) (mmu : MMU)
    (trace_cache : LRUCache U32 Trace) (world : World) :
    (∀ e, boot file phdrs entry mmu trace_cache world = .error e ↔
      loadError file mmu.pmem_size_ phdrs = some e) ∧
    ∀ s, boot file phdrs entry mmu trace_cache world = .ok s ↔
      loadError file mmu.pmem_size_ phdrs = none ∧ Booted file phdrs entry mmu trace_cache world s := by
  have hloaded := booted_loaded file phdrs entry mmu trace_cache world
  rw [boot_eq_elim]
  cases loadError file mmu.pmem_size_ phdrs with
  | some e => simp
  | none =>
    refine ⟨fun e ↦ by simp, fun s ↦ ⟨fun h ↦ ?_, fun h ↦ ?_⟩⟩
    · cases h
      exact ⟨rfl, hloaded⟩
    · rw [Option.elim_none, hloaded.unique h.2]

/-- What `main` does before the loop, whatever the arguments and whatever file they name, and where the
loop begins if it comes to it: 2 ^ 19 bytes are there for the image, whatever `-mem-pages` says. -/
theorem main_outcome (files : Files) (host : Host) (pmem : ℕ → U8) (world : World) {argv : List String}
    {l : List Setting} {o : Option Halt} {fuel : ℕ} (hargs : Parses argv.tail l o)
    (hfuel : argv.length < fuel) :
    (∀ h, o = some h → main files host pmem world fuel argv = .ofHalt h) ∧
    (o = none → ∀ what, files (assign l Var.default_value .elf_file) = .error what →
      main files host pmem world fuel argv = .caught what) ∧
    (o = none → ∀ file phdrs entry,
      files (assign l Var.default_value .elf_file) = .ok (file, phdrs, entry) →
      (∀ e, loadError file (2 ^ 19) phdrs = some e →
        main files host pmem world fuel argv = .ofLoadError e) ∧
      (loadError file (2 ^ 19) phdrs = none → ∃ s,
        Booted file phdrs entry (staticMmu pmem) staticCache world s ∧
        main files host pmem world fuel argv =
          .ofRun ((Sim.execute ⟨assign l Var.default_value .jit, assign l Var.default_value .jit_threshold,
            assign l Var.default_value .max_insts⟩ host fuel).run s))) := by
  obtain ⟨p, hdata, hrun⟩ := run_of_parses hargs
  have hparse := hrun fuel hfuel
  refine ⟨?_, ?_, ?_⟩
  · rintro h rfl
    simp only [main, hparse, Option.elim_some]
  · rintro rfl what hfile
    rw [← hdata] at hfile
    simp only [main, hparse, Option.elim_none, hfile]
  · rintro rfl file phdrs entry hfile
    have hboot := boot_eq_elim file phdrs entry (staticMmu pmem) staticCache world
    rw [staticMmu_size] at hboot
    rw [← hdata] at hfile ⊢
    refine ⟨fun e he ↦ ?_, fun hnone ↦ ⟨_, booted_loaded _ _ _ _ _ _, ?_⟩⟩
    · rw [he, Option.elim_some] at hboot
      simp only [main, hparse, Option.elim_none, hfile, hboot]
    · rw [hnone, Option.elim_none] at hboot
      exact main_eq hparse hfile hboot

def fiveFiles : Files := fun _ ↦ .ok ([1, 2, 3, 4, 5], [⟨0, 0, 5, 1⟩], 0)

/-- Five bytes for a buffer of one word, which `read` writes before anything is checked. -/
theorem main_outcome_five :
    main fiveFiles (idleHost 8) (fun _ ↦ 0) ⟨[], [], fun _ ↦ ⟨0, 0, 0⟩, 0⟩ 8 ["sim", "-elf", "five"] =
      .undefinedBehaviour := by
  let argv := ["sim", "-elf", "five"]
  have hargs : Parses argv.tail [⟨.elf_file, some "five"⟩] none :=
    .setting (v := .elf_file) (.charPtr "five") .done
  obtain ⟨-, -, hload⟩ := main_outcome fiveFiles (idleHost 8) (fun _ ↦ 0) ⟨[], [], fun _ ↦ ⟨0, 0, 0⟩, 0⟩
    hargs (by decide : argv.length < 8)
  obtain ⟨herror, -⟩ := hload rfl [1, 2, 3, 4, 5] [⟨0, 0, 5, 1⟩] 0 rfl
  exact herror (.stop .undefinedBehaviour) (by decide)

end RiscvSim
