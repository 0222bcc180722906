import RiscvSim.State
import Mathlib.Data.Finset.Max
import Mathlib.Data.List.Pairwise

namespace RiscvSim

open Isa Ir Results

/-- The fields of a program header that `load` reads; `gelf_getphdr` widens them to 64 bits. -/
structure Phdr where
  p_offset : U32
  p_vaddr : U32
  p_filesz : U32
  p_memsz : U32
  deriving DecidableEq

/-- How loading ends early: `std::runtime_error` from the reader, or a stop of the simulator. -/
inductive LoadError
  | runtime_error (what : String)
  | stop (e : Stop)
  deriving DecidableEq

namespace Elf_reader

def words (bytes : ℕ → U8) (n : ℕ) : List U32 :=
  (List.range n).map fun k ↦ Bytes.read bytes (4 * k) 4

/-- The bytes of `buf`: what `read` put at its start, and the zeros it was made with. -/
def bufBytes (file : List U8) (phdr : Phdr) (count : ℕ) (j : ℕ) : U8 :=
  if j < count then file.getD (phdr.p_offset.toNat + j) 0 else 0

/-- One round of the loop of `load`: `buf` has `p_memsz` words, and `read` returns as many
bytes as the file still has, in an `int`. -/
def loadSegment (file : List U8) (phdr : Phdr) : Except LoadError (List U32) :=
  let count := min phdr.p_filesz.toNat (file.length - phdr.p_offset.toNat)
  let read_sz : U32 := BitVec.ofNat 32 count
  if 4 * phdr.p_memsz.toNat < count then .error (.stop .undefinedBehaviour)
  else if read_sz.toInt < 0 ∨ phdr.p_filesz ≠ read_sz then
    .error (.runtime_error "Elf reader failed")
  else .ok (words (bufBytes file phdr count) phdr.p_memsz.toNat)

def load (file : List U8) (phdrs : List Phdr) (entry_ : U32) :
    Except LoadError (List (List U32) × List U32 × U32) := do
  let cmds ← phdrs.mapM (loadSegment file)
  return (cmds, phdrs.map (·.p_vaddr), entry_)

end Elf_reader

namespace MMU

def memcpy (mmu : MMU) (ptr : ℕ) : List U32 → MMU
  | [] => mmu
  | w :: ws => memcpy (mmu.writeMem (n := 4) ptr w) (ptr + 4) ws

end MMU

namespace State

def copySegments : List (List U32) → List U32 → MMU → Except Stop MMU
  | _, [], mmu => .ok mmu
  | [], _ :: _, _ => .error .undefinedBehaviour
  | command :: commands, va :: seg_va, mmu => do
    if mmu.pmem_size_ < va.toNat + 4 * command.length then
      throw (.simException "Not enough memory to load segment")
    else
      let ptr ← mmu.getMemPtr 1 (va.setWidth 64)
      copySegments commands seg_va (mmu.memcpy ptr command)

def new (commands : List (List U32)) (seg_va : List U32) (pc : U32) (mmu : MMU)
    (trace_cache : LRUCache U32 Trace) (world : World) : Except Stop State := do
  let sp : U32 := (BitVec.ofNat 64 mmu.pmem_size_ - 2 * MMU.pagesize.setWidth 64).setWidth 32
  let mmu ← copySegments commands seg_va mmu
  return {
    trace_cache := trace_cache
    mmu := mmu
    regs := Regs.fill0.set Reg.sp sp
    pc := pc
    executed_insts := 0
    world := world }

end State

def boot (file : List U8) (phdrs : List Phdr) (entry : U32) (mmu : MMU)
    (trace_cache : LRUCache U32 Trace) (world : World) : Except LoadError State := do
  let (cmds, seg_va, pc) ← Elf_reader.load file phdrs entry
  match State.new cmds seg_va pc mmu trace_cache world with
  | .ok s => return s
  | .error e => throw (.stop e)

namespace Phdr

def content (file : List U8) (phdr : Phdr) (k : ℕ) : U8 :=
  if k < phdr.p_filesz.toNat then file.getD (phdr.p_offset.toNat + k) 0 else 0

def Owns (phdr : Phdr) (b : ℕ) : Prop :=
  phdr.p_vaddr.toNat ≤ b ∧ b < phdr.p_vaddr.toNat + phdr.p_memsz.toNat

/-- The addresses the constructor copies to: a word for each byte of the segment. -/
def Covers (phdr : Phdr) (b : ℕ) : Prop :=
  phdr.p_vaddr.toNat ≤ b ∧ b < phdr.p_vaddr.toNat + 4 * phdr.p_memsz.toNat

instance (phdr : Phdr) (b : ℕ) : Decidable (phdr.Covers b) := inferInstanceAs (Decidable (_ ∧ _))

theorem Owns.covers {phdr : Phdr} {b : ℕ} (h : phdr.Owns b) : phdr.Covers b := by
  obtain ⟨hl, hu⟩ := h
  exact ⟨hl, by omega⟩

/-- The copy stays in memory, and its first byte passes the check of `getMemPtr`. -/
def Fits (size : ℕ) (phdr : Phdr) : Prop :=
  phdr.p_vaddr.toNat + 4 * phdr.p_memsz.toNat ≤ size ∧ phdr.p_vaddr.toNat + 1 < size

end Phdr

def copyAll (file : List U8) : List Phdr → (ℕ → U8) → ℕ → U8
  | [], mem => mem
  | phdr :: phdrs, mem => copyAll file phdrs fun b ↦
      if phdr.Covers b then phdr.content file (b - phdr.p_vaddr.toNat) else mem b

section

variable {file : List U8} {phdr : Phdr} {phdrs : List Phdr} {mmu : MMU}
  {size : ℕ}

theorem memcpy_range' (bytes : ℕ → U8) (k n ptr : ℕ) (mmu : MMU) :
    mmu.memcpy ptr ((List.range' k n).map fun j ↦ Bytes.read bytes (4 * j) 4) =
      { mmu with pmem_ := fun b ↦
          if ptr ≤ b ∧ b < ptr + 4 * n then bytes (4 * k + (b - ptr)) else mmu.pmem_ b } := by
  induction n generalizing k ptr mmu with
  | zero =>
    have hout : ∀ b, ¬ (ptr ≤ b ∧ b < ptr + 4 * 0) := fun b ↦ by omega
    simp only [hout, if_false]
    rfl
  | succ n ih =>
    rw [List.range'_succ, List.map_cons, MMU.memcpy, ih, MMU.writeMem]
    congr 1
    funext b
    have hword : ptr ≤ b → b < ptr + 4 →
        Bytes.byte (Bytes.read bytes (4 * k) 4) (b - ptr) = bytes (4 * k + (b - ptr)) :=
      fun hl hu ↦ Bytes.byte_read bytes (4 * k) (by omega)
    by_cases h₁ : ptr + 4 ≤ b ∧ b < ptr + 4 + 4 * n
    · rw [if_pos h₁, if_pos (by omega)]
      congr 1
      omega
    · rw [if_neg h₁]
      simp only [Bytes.write]
      by_cases h₂ : ptr ≤ b ∧ b < ptr + 4
      · rw [if_pos h₂, if_pos (by omega), hword h₂.1 h₂.2]
      · rw [if_neg h₂, if_neg (by omega)]

theorem memcpy_words (bytes : ℕ → U8) (n ptr : ℕ) (mmu : MMU) :
    mmu.memcpy ptr (Elf_reader.words bytes n) =
      { mmu with pmem_ := fun b ↦
          if ptr ≤ b ∧ b < ptr + 4 * n then bytes (b - ptr) else mmu.pmem_ b } := by
  have h := memcpy_range' bytes 0 n ptr mmu
  rw [Nat.mul_zero] at h
  simp only [Nat.zero_add] at h
  rw [Elf_reader.words, List.range_eq_range', h]

theorem words_length (bytes : ℕ → U8) (n : ℕ) : (Elf_reader.words bytes n).length = n := by
  rw [Elf_reader.words, List.length_map, List.length_range]

def segmentWords (file : List U8) (phdr : Phdr) : List U32 :=
  Elf_reader.words (phdr.content file) phdr.p_memsz.toNat

theorem toInt_ofNat_nonneg {n : ℕ} (hn : n < 2 ^ 32) : ¬ (BitVec.ofNat 32 n).toInt < 0 ↔ n < 2 ^ 31 := by
  rw [BitVec.toInt_eq_toNat_cond, BitVec.toNat_ofNat, Nat.mod_eq_of_lt hn]
  split <;> omega

theorem loadSegment_eq (hsz : phdr.p_filesz.toNat ≤ phdr.p_memsz.toNat)
    (hfile : phdr.p_offset.toNat + phdr.p_filesz.toNat ≤ file.length) :
    Elf_reader.loadSegment file phdr = if phdr.p_filesz.toNat < 2 ^ 31 then
      .ok (segmentWords file phdr) else .error (.runtime_error "Elf reader failed") := by
  have hcount : min phdr.p_filesz.toNat (file.length - phdr.p_offset.toNat) = phdr.p_filesz.toNat :=
    Nat.min_eq_left (by omega)
  have hint := toInt_ofNat_nonneg phdr.p_filesz.isLt
  simp only [Elf_reader.loadSegment, hcount]
  rw [if_neg (by omega)]
  by_cases h : phdr.p_filesz.toNat < 2 ^ 31
  · rw [if_pos h, if_neg]
    · rfl
    · rintro (hneg | hne)
      · exact hint.mpr h hneg
      · exact hne (by rw [BitVec.ofNat_toNat, BitVec.setWidth_eq])
  · rw [if_neg h, if_pos (.inl (by_contra fun hn ↦ h (hint.mp hn)))]

/-- Every segment has its bytes in the file and no more of them than it has room for, and the segments
lie apart from each other and below the end of memory. -/
structure WellFormed (file : List U8) (size : ℕ) (phdrs : List Phdr) : Prop where
  filesz : ∀ phdr ∈ phdrs, phdr.p_filesz.toNat ≤ phdr.p_memsz.toNat
  readable : ∀ phdr ∈ phdrs, phdr.p_offset.toNat + phdr.p_filesz.toNat ≤ file.length
  disjoint : phdrs.Pairwise fun phdr phdr' ↦ ∀ b, phdr.Owns b → ¬ phdr'.Owns b
  below : ∀ phdr ∈ phdrs, phdr.p_vaddr.toNat + phdr.p_memsz.toNat < size

theorem WellFormed.tail (h : WellFormed file size (phdr :: phdrs)) : WellFormed file size phdrs where
  filesz q hq := h.filesz q (List.mem_cons_of_mem _ hq)
  readable q hq := h.readable q (List.mem_cons_of_mem _ hq)
  disjoint := (List.pairwise_cons.mp h.disjoint).2
  below q hq := h.below q (List.mem_cons_of_mem _ hq)

theorem copySegments_ok (h : ∀ phdr ∈ phdrs, phdr.Fits mmu.pmem_size_) :
    State.copySegments (phdrs.map (segmentWords file)) (phdrs.map (·.p_vaddr)) mmu =
      .ok { mmu with pmem_ := copyAll file phdrs mmu.pmem_ } := by
  induction phdrs generalizing mmu with
  | nil => rfl
  | cons phdr phdrs ih =>
    obtain ⟨hcopy, hptr⟩ := h phdr List.mem_cons_self
    rw [List.map_cons, List.map_cons, State.copySegments, segmentWords, words_length,
      if_neg (Nat.not_lt_of_le hcopy), MMU.getMemPtr_setWidth, if_neg (Nat.not_le_of_lt hptr)]
    change State.copySegments _ _ (mmu.memcpy _ _) = _
    rw [memcpy_words]
    exact ih fun q hq ↦ h q (List.mem_cons_of_mem _ hq)

theorem fits_of_copySegments {mmu' : MMU} (h : State.copySegments (phdrs.map (segmentWords file))
    (phdrs.map (·.p_vaddr)) mmu = .ok mmu') : ∀ phdr ∈ phdrs, phdr.Fits mmu.pmem_size_ := by
  induction phdrs generalizing mmu with
  | nil => simp
  | cons phdr phdrs ih =>
    rw [List.map_cons, List.map_cons, State.copySegments, segmentWords, words_length,
      MMU.getMemPtr_setWidth] at h
    split at h
    · cases h
    · next hcopy =>
      obtain ⟨ptr, hptr, hrest⟩ := bind_eq_ok.mp h
      split at hptr
      · cases hptr
      · next hfirst =>
        cases hptr
        rw [memcpy_words] at hrest
        have hall := ih hrest
        intro q hq
        rcases List.mem_cons.mp hq with rfl | hq
        · exact ⟨Nat.le_of_not_lt hcopy, Nat.lt_of_not_le hfirst⟩
        · exact hall q hq

theorem mapM_loadSegment (h : WellFormed file size phdrs) {cmds : List (List U32)} :
    phdrs.mapM (Elf_reader.loadSegment file) = .ok cmds ↔
      (∀ phdr ∈ phdrs, phdr.p_filesz.toNat < 2 ^ 31) ∧ cmds = phdrs.map (segmentWords file) := by
  induction phdrs generalizing cmds with
  | nil =>
    rw [List.mapM_nil]
    exact ⟨fun h ↦ ⟨by simp, (Except.ok.inj h).symm⟩, fun h ↦ congrArg Except.ok h.2.symm⟩
  | cons phdr phdrs ih =>
    rw [List.mapM_cons, bind_eq_ok, List.forall_mem_cons, List.map_cons,
      loadSegment_eq (h.filesz phdr List.mem_cons_self) (h.readable phdr List.mem_cons_self)]
    constructor
    · rintro ⟨cmd, hcmd, hrest⟩
      obtain ⟨cmds', hcmds, hc⟩ := bind_eq_ok.mp hrest
      obtain ⟨hsmall, rfl⟩ := (ih h.tail).mp hcmds
      split at hcmd
      · next hlt =>
        cases hcmd
        exact ⟨⟨hlt, hsmall⟩, (Except.ok.inj hc).symm⟩
      · cases hcmd
    · rintro ⟨⟨hlt, hsmall⟩, rfl⟩
      exact ⟨_, if_pos hlt, bind_eq_ok.mpr ⟨_, (ih h.tail).mpr ⟨hsmall, rfl⟩, rfl⟩⟩

theorem boot_ok_iff (mmu : MMU) (entry : U32) (trace_cache : LRUCache U32 Trace) (world : World)
    (h : WellFormed file mmu.pmem_size_ phdrs) {pmem : ℕ → U8} :
    (∃ s, boot file phdrs entry mmu trace_cache world = .ok s ∧ s.mmu.pmem_ = pmem) ↔
      (∀ phdr ∈ phdrs, phdr.p_filesz.toNat < 2 ^ 31 ∧ phdr.Fits mmu.pmem_size_) ∧
        pmem = copyAll file phdrs mmu.pmem_ := by
  constructor
  · rintro ⟨s, hs, rfl⟩
    obtain ⟨⟨cmds, seg_va, pc⟩, hload, hnew⟩ := bind_eq_ok.mp hs
    obtain ⟨cmds', hcmds, hret⟩ := bind_eq_ok.mp hload
    obtain ⟨hsmall, rfl⟩ := (mapM_loadSegment h).mp hcmds
    cases hret
    dsimp only at hnew
    split at hnew
    · next s' hs' =>
      cases hnew
      obtain ⟨mmu', hcopy, hret⟩ := bind_eq_ok.mp hs'
      have hfits := fits_of_copySegments hcopy
      rw [copySegments_ok hfits] at hcopy
      cases hcopy
      cases hret
      exact ⟨fun q hq ↦ ⟨hsmall q hq, hfits q hq⟩, rfl⟩
    · cases hnew
  · rintro ⟨hall, rfl⟩
    have hload : phdrs.mapM (Elf_reader.loadSegment file) = .ok (phdrs.map (segmentWords file)) :=
      (mapM_loadSegment h).mpr ⟨fun q hq ↦ (hall q hq).1, rfl⟩
    have hcopy : State.copySegments (phdrs.map (segmentWords file)) _ mmu = _ :=
      copySegments_ok fun q hq ↦ (hall q hq).2
    have hnew : ∃ s, State.new (phdrs.map (segmentWords file)) (phdrs.map (·.p_vaddr)) entry mmu
        trace_cache world = .ok s ∧ s.mmu.pmem_ = copyAll file phdrs mmu.pmem_ := by
      unfold State.new
      exact ⟨_, bind_eq_ok.mpr ⟨_, hcopy, rfl⟩, rfl⟩
    obtain ⟨s, hs, hmem⟩ := hnew
    refine ⟨s, bind_eq_ok.mpr ⟨_, bind_eq_ok.mpr ⟨_, hload, rfl⟩, ?_⟩, hmem⟩
    dsimp only
    rw [hs]
    rfl

theorem copyAll_of_not_covers {b : ℕ} (h : ∀ phdr ∈ phdrs, ¬ phdr.Covers b) (mem : ℕ → U8) :
    copyAll file phdrs mem b = mem b := by
  induction phdrs generalizing mem with
  | nil => rfl
  | cons phdr phdrs ih =>
    rw [copyAll, ih fun q hq ↦ h q (List.mem_cons_of_mem _ hq), if_neg (h phdr List.mem_cons_self)]

theorem copyAll_last {b : ℕ} {before after : List Phdr} (hc : phdr.Covers b)
    (h : ∀ q ∈ after, ¬ q.Covers b) (mem : ℕ → U8) :
    copyAll file (before ++ phdr :: after) mem b = phdr.content file (b - phdr.p_vaddr.toNat) := by
  induction before generalizing mem with
  | nil => rw [List.nil_append, copyAll, copyAll_of_not_covers h, if_pos hc]
  | cons q before ih => exact ih _

theorem exists_last_covers {b : ℕ} (h : ∃ phdr ∈ phdrs, phdr.Covers b) :
    ∃ before phdr after, phdrs = before ++ phdr :: after ∧ phdr.Covers b ∧
      ∀ q ∈ after, ¬ q.Covers b := by
  induction phdrs with
  | nil => simp at h
  | cons phdr phdrs ih =>
    by_cases hr : ∃ q ∈ phdrs, q.Covers b
    · obtain ⟨before, q, after, rfl, hq⟩ := ih hr
      exact ⟨phdr :: before, q, after, rfl, hq⟩
    · obtain ⟨q, hq, hc⟩ := h
      rcases List.mem_cons.mp hq with rfl | hq
      · exact ⟨[], q, phdrs, rfl, hc, fun r hr' hcr ↦ hr ⟨r, hr', hcr⟩⟩
      · exact absurd ⟨q, hq, hc⟩ hr

theorem content_of_not_owns (hsz : phdr.p_filesz.toNat ≤ phdr.p_memsz.toNat) {b : ℕ}
    (hc : phdr.Covers b) (ho : ¬ phdr.Owns b) : phdr.content file (b - phdr.p_vaddr.toNat) = 0 := by
  have hl := hc.1
  have hu : phdr.p_vaddr.toNat + phdr.p_memsz.toNat ≤ b := by
    by_contra hlt
    exact ho ⟨hl, by omega⟩
  exact if_neg (by omega)

def SegmentsLoaded (file : List U8) (phdrs : List Phdr) (mem : ℕ → U8) : Prop :=
  ∀ phdr ∈ phdrs, ∀ k < phdr.p_memsz.toNat, mem (phdr.p_vaddr.toNat + k) =
    if k < phdr.p_filesz.toNat then file.getD (phdr.p_offset.toNat + k) 0 else 0

/-- Loading does not throw, and whatever the memory held before, it then holds the segments
and is not written elsewhere. -/
def Loads (file : List U8) (phdrs : List Phdr) (entry : U32) (mmu : MMU)
    (trace_cache : LRUCache U32 Trace) (world : World) : Prop :=
  ∀ pmem, ∃ s, boot file phdrs entry { mmu with pmem_ := pmem } trace_cache world = .ok s ∧
    SegmentsLoaded file phdrs s.mmu.pmem_ ∧
    ∀ b, (∀ phdr ∈ phdrs, ¬ phdr.Owns b) → s.mmu.pmem_ b = pmem b

variable {entry : U32} {trace_cache : LRUCache U32 Trace} {world : World}

theorem empty_of_loads (h : WellFormed file mmu.pmem_size_ phdrs)
    (hl : Loads file phdrs entry mmu trace_cache world) : ∀ phdr ∈ phdrs, phdr.p_memsz = 0 := by
  intro phdr₀ hphdr₀
  by_contra hne₀
  let top (phdr : Phdr) : ℕ := phdr.p_vaddr.toNat + 4 * phdr.p_memsz.toNat
  have hpos : ∀ phdr : Phdr, phdr.p_memsz ≠ 0 → 0 < phdr.p_memsz.toNat := fun phdr hne ↦
    Nat.pos_of_ne_zero fun h0 ↦ hne (BitVec.eq_of_toNat_eq h0)
  obtain ⟨highest, hhigh, hmax⟩ := Finset.exists_max_image
    (phdrs.toFinset.filter fun phdr ↦ phdr.p_memsz ≠ 0) top
    ⟨phdr₀, Finset.mem_filter.mpr ⟨List.mem_toFinset.mpr hphdr₀, hne₀⟩⟩
  obtain ⟨hin, hne⟩ := Finset.mem_filter.mp hhigh
  have hmem := List.mem_toFinset.mp hin
  have hmax' : ∀ phdr ∈ phdrs, phdr.p_memsz ≠ 0 → top phdr ≤ top highest :=
    fun phdr hp hn ↦
    hmax phdr (Finset.mem_filter.mpr ⟨List.mem_toFinset.mpr hp, hn⟩)
  have hhpos := hpos highest hne
  -- Every copy that reaches the byte `top highest - 1` ends there.
  have hends : ∀ phdr ∈ phdrs, phdr.Covers (top highest - 1) →
      top phdr = top highest ∧ ¬ phdr.Owns (top highest - 1) := by
    intro phdr hp hc
    have hn : phdr.p_memsz ≠ 0 := by
      rintro h0
      have hu := hc.2
      rw [h0] at hu
      exact absurd hu (Nat.not_lt_of_le hc.1)
    have hle := hmax' phdr hp hn
    have hu := hc.2
    have hp' := hpos phdr hn
    refine ⟨?_, ?_⟩
    · simp only [top] at hle hu ⊢
      omega
    · rintro ⟨-, ho⟩
      simp only [top] at hle ho
      omega
  obtain ⟨s, hs, -, hout⟩ := hl fun _ ↦ 1
  have hcopy := ((boot_ok_iff { mmu with pmem_ := fun _ ↦ 1 } entry trace_cache world h).mp ⟨s, hs, rfl⟩).2
  have hcover : highest.Covers (top highest - 1) := by
    refine ⟨?_, ?_⟩ <;> simp only [top] <;> omega
  obtain ⟨before, phdr, after, hsplit, hc, hafter⟩ :=
    exists_last_covers ⟨highest, hmem, hcover⟩
  have hphdr : phdr ∈ phdrs := by simp [hsplit]
  have hzero : s.mmu.pmem_ (top highest - 1) = 0 := by
    rw [hcopy, hsplit, copyAll_last hc hafter]
    exact content_of_not_owns (h.filesz phdr hphdr) hc (hends phdr hphdr hc).2
  have hone := hout (top highest - 1) fun q hq ho ↦ (hends q hq ho.covers).2 ho
  rw [hzero] at hone
  cases hone

/-- The copies write three bytes too many for each byte of a segment, so that loading does
what the headers describe only when there is nothing to load. -/
theorem boot_loads_iff (h : WellFormed file mmu.pmem_size_ phdrs) :
    Loads file phdrs entry mmu trace_cache world ↔
      ∀ phdr ∈ phdrs, phdr.p_memsz = 0 ∧ phdr.p_vaddr.toNat + 1 < mmu.pmem_size_ := by
  constructor
  · intro hl phdr hp
    obtain ⟨s, hs, -⟩ := hl mmu.pmem_
    have hfits := ((boot_ok_iff mmu entry trace_cache world h).mp ⟨s, hs, rfl⟩).1 phdr hp
    exact ⟨empty_of_loads h hl phdr hp, hfits.2.2⟩
  · intro hempty pmem
    have hfits : ∀ phdr ∈ phdrs, phdr.p_filesz.toNat < 2 ^ 31 ∧ phdr.Fits mmu.pmem_size_ := by
      intro phdr hp
      obtain ⟨h0, hfirst⟩ := hempty phdr hp
      have hsz := h.filesz phdr hp
      rw [h0] at hsz
      refine ⟨Nat.lt_of_le_of_lt hsz (by decide), ?_, hfirst⟩
      rw [h0]
      exact hfirst.le.trans' (Nat.le_succ _)
    obtain ⟨s, hs, hmem⟩ := (boot_ok_iff { mmu with pmem_ := pmem } entry trace_cache world h).mpr ⟨hfits, rfl⟩
    refine ⟨s, hs, fun phdr hp k hk ↦ ?_, fun b _ ↦ ?_⟩
    · rw [(hempty phdr hp).1] at hk
      exact absurd hk (Nat.not_lt_zero k)
    · rw [hmem]
      refine copyAll_of_not_covers (fun phdr hp hc ↦ ?_) pmem
      have hu := hc.2
      rw [(hempty phdr hp).1] at hu
      exact absurd hu (Nat.not_lt_of_le hc.1)

theorem WellFormed.eq_of_owns (h : WellFormed file size phdrs) {q r : Phdr} (hq : q ∈ phdrs)
    (hr : r ∈ phdrs) {b : ℕ} (ho : q.Owns b) (ho' : r.Owns b) : q = r := by
  by_contra hne
  have hsymm : Std.Symm fun phdr phdr' : Phdr ↦ ∀ b, phdr.Owns b → ¬ phdr'.Owns b :=
    ⟨fun _ _ hd b h₁ h₂ ↦ hd b h₂ h₁⟩
  exact h.disjoint.forall hq hr hne b ho ho'

/-- The segments themselves survive when no later copy spills bytes over one that is not
zero there, or a still later one repairs it. -/
theorem boot_segments_iff (h : WellFormed file mmu.pmem_size_ phdrs) :
    (∃ s, boot file phdrs entry mmu trace_cache world = .ok s ∧
        SegmentsLoaded file phdrs s.mmu.pmem_) ↔
      (∀ phdr ∈ phdrs, phdr.p_filesz.toNat < 2 ^ 31 ∧ phdr.Fits mmu.pmem_size_) ∧
      ∀ before phdr after, phdrs = before ++ phdr :: after → ∀ q ∈ before, q ≠ phdr → ∀ b,
        q.Owns b → phdr.Covers b → (∀ r ∈ after, ¬ r.Covers b) →
          q.content file (b - q.p_vaddr.toNat) = 0 := by
  constructor
  · rintro ⟨s, hs, hseg⟩
    obtain ⟨hfits, hmem⟩ := (boot_ok_iff mmu entry trace_cache world h).mp ⟨s, hs, rfl⟩
    refine ⟨hfits, fun before phdr after hsplit q hq hne b ho hc hafter ↦ ?_⟩
    have hq' : q ∈ phdrs := by simp [hsplit, hq]
    have hp : phdr ∈ phdrs := by simp [hsplit]
    have hl := ho.1
    have hown := hseg q hq' (b - q.p_vaddr.toNat) (by
      have := ho.2
      omega)
    have hno : ¬ phdr.Owns b := fun ho' ↦ hne (h.eq_of_owns hq' hp ho ho')
    rw [Nat.add_sub_cancel' hl, hmem, hsplit, copyAll_last hc hafter,
      content_of_not_owns (h.filesz phdr hp) hc hno] at hown
    exact hown.symm
  · rintro ⟨hfits, hspill⟩
    obtain ⟨s, hs, hmem⟩ := (boot_ok_iff mmu entry trace_cache world h).mpr ⟨hfits, rfl⟩
    refine ⟨s, hs, fun q hq k hk ↦ ?_⟩
    have ho : q.Owns (q.p_vaddr.toNat + k) := ⟨Nat.le_add_right _ _, Nat.add_lt_add_left hk _⟩
    obtain ⟨before, phdr, after, hsplit, hc, hafter⟩ := exists_last_covers ⟨q, hq, ho.covers⟩
    have hp : phdr ∈ phdrs := by simp [hsplit]
    have hval : q.content file (q.p_vaddr.toNat + k - q.p_vaddr.toNat) =
        if k < q.p_filesz.toNat then file.getD (q.p_offset.toNat + k) 0 else 0 := by
      rw [Nat.add_sub_cancel_left]
      rfl
    rw [hmem, ← hval, hsplit, copyAll_last hc hafter]
    by_cases he : q = phdr
    · rw [he]
    · have hno : ¬ phdr.Owns (q.p_vaddr.toNat + k) := fun ho' ↦ he (h.eq_of_owns hq hp ho ho')
      have hbefore : q ∈ before := by
        rw [hsplit, List.mem_append, List.mem_cons] at hq
        rcases hq with hq | rfl | hq
        · exact hq
        · exact absurd rfl he
        · exact absurd ho.covers (hafter q hq)
      rw [content_of_not_owns (h.filesz phdr hp) hc hno,
        hspill before phdr after hsplit q hbefore he _ ho hc hafter]

end

/-- Four bytes at address 4 and four at address 0, in that order. -/
def descending : List Phdr := [⟨0, 4, 4, 4⟩, ⟨4, 0, 4, 4⟩]

def emptyPage : MMU := ⟨.new 1, .new 1, 4096, fun _ ↦ 0, 0x17#32⟩

theorem wellFormed_descending : WellFormed [1, 2, 3, 4, 5, 6, 7, 8] emptyPage.pmem_size_ descending where
  filesz := by decide
  readable := by decide
  disjoint := by
    refine List.pairwise_pair.mpr fun b h h' ↦ ?_
    have hl : 4 ≤ b := h.1
    have hu : b < 0 + 4 := h'.2
    omega
  below := by decide

/-- An empty segment loads, these two do not. -/
theorem boot_loads_iff_descending :
    Loads [1, 2, 3, 4] [⟨0, 8, 0, 0⟩] 0 emptyPage (.new 1) ⟨[], [], fun _ ↦ ⟨0, 0, 0⟩, 0⟩ ∧
      ¬ Loads [1, 2, 3, 4, 5, 6, 7, 8] descending 0 emptyPage (.new 1) ⟨[], [], fun _ ↦ ⟨0, 0, 0⟩, 0⟩ := by
  have hempty : WellFormed [1, 2, 3, 4] emptyPage.pmem_size_ [⟨0, 8, 0, 0⟩] :=
    ⟨by decide, by decide, List.pairwise_singleton _ _, by decide⟩
  refine ⟨(boot_loads_iff hempty).mpr (by decide), fun h ↦ ?_⟩
  have hall := (boot_loads_iff wellFormed_descending).mp h ⟨0, 4, 4, 4⟩ List.mem_cons_self
  exact absurd hall.1 (by decide)

/-- The copy of the lower segment clears the higher one. -/
theorem boot_clears_segment : ¬ ∀ (file : List U8) (phdrs : List Phdr) (entry : U32) (mmu : MMU)
    (trace_cache : LRUCache U32 Trace) (world : World), WellFormed file mmu.pmem_size_ phdrs →
      Loads file phdrs entry mmu trace_cache world := by
  intro h
  obtain ⟨s, hs, hseg, -⟩ := h _ descending 0 emptyPage (.new 1) ⟨[], [], fun _ ↦ ⟨0, 0, 0⟩, 0⟩
    wellFormed_descending emptyPage.pmem_
  have hmem := ((boot_ok_iff emptyPage 0 (.new 1) ⟨[], [], fun _ ↦ ⟨0, 0, 0⟩, 0⟩
    wellFormed_descending).mp ⟨s, hs, rfl⟩).2
  have hbyte := hseg ⟨0, 4, 4, 4⟩ List.mem_cons_self 0 (by decide)
  rw [hmem] at hbyte
  exact absurd hbyte (by decide)

end RiscvSim
