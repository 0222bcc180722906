import RiscvSim.Program
import RiscvSim.ExactCaches
import RiscvSim.LruExact

namespace RiscvSim

open Results Simulation Options Sim

namespace LRUCache

variable {κ α : Type} {n m : ℕ} {c : LRUCache κ α}

theorem Tight.not_stuck (h : c.Tight n) (hn : n ≠ 0) : ¬ c.Stuck := by
  rintro ⟨hnil, hfull⟩
  have hsize := h.size
  rw [hnil, List.length_nil, hfull, h.cap] at hsize
  exact hn hsize.symm

variable [DecidableEq κ]

/-- The cache is one of `n` entries, and answers along every history of calls. -/
structure WorksAt (n : ℕ) (c : LRUCache κ α) : Prop where
  size : c.max_size_ = n
  answers : ∀ ops : List (Op κ α), Along (fun op ↦ attempt (perform op)) Answers ops c

theorem worksAt_new_iff (hm : m ≠ 0) : (new m : LRUCache κ α).WorksAt n ↔ m = n :=
  ⟨WorksAt.size, fun h ↦ ⟨h, fun ops ↦ (every_size_iff m ops).mpr (.inl hm)⟩⟩

end LRUCache

/-- The three caches of this state work at the sizes that the options ask for. -/
structure CachesWork (data : (v : Var) → v.type.denote) (s : State) : Prop where
  traces : s.trace_cache.WorksAt (data .cache_size).toNat
  inst : s.mmu.instTLB_.WorksAt (data .itlb_size).toNat
  data : s.mmu.dataTLB_.WorksAt (data .dtlb_size).toNat

variable {files : Files} {pmem : ℕ → U8} {world : World} {argv : List String}
  {l : List Setting} {file : List U8} {phdrs : List Phdr} {entry : U32} {s : State}

theorem caches_of_boot (hboot : boot file phdrs entry (staticMmu pmem) staticCache world = .ok s) :
    s.trace_cache = .new 256 ∧ s.mmu.instTLB_ = .new 256 ∧ s.mmu.dataTLB_ = .new 256 := by
  obtain ⟨hcache, -, -, mem, hmmu⟩ := boot_eq_ok hboot
  refine ⟨hcache, ?_, ?_⟩
  · rw [hmmu]
    rfl
  · rw [hmmu]
    rfl

theorem toNat_eq_iff {v : U64} : 256 = v.toNat ↔ v = 256#64 := by
  rw [← BitVec.toNat_inj, eq_comm]
  rfl

theorem cachesWork_iff (hboot : boot file phdrs entry (staticMmu pmem) staticCache world = .ok s)
    (data : (v : Var) → v.type.denote) : CachesWork data s ↔
      data .cache_size = 256#64 ∧ data .itlb_size = 256#64 ∧ data .dtlb_size = 256#64 := by
  obtain ⟨htraces, hinst, hdata⟩ := caches_of_boot hboot
  have hroom : 256 ≠ 0 := by decide
  rw [← toNat_eq_iff, ← toNat_eq_iff, ← toNat_eq_iff]
  constructor
  · rintro ⟨ht, hi, hd⟩
    rw [htraces, LRUCache.worksAt_new_iff hroom] at ht
    rw [hinst, LRUCache.worksAt_new_iff hroom] at hi
    rw [hdata, LRUCache.worksAt_new_iff hroom] at hd
    exact ⟨ht, hi, hd⟩
  · rintro ⟨ht, hi, hd⟩
    refine ⟨?_, ?_, ?_⟩
    · rw [htraces, LRUCache.worksAt_new_iff hroom, ht]
    · rw [hinst, LRUCache.worksAt_new_iff hroom, hi]
    · rw [hdata, LRUCache.worksAt_new_iff hroom, hd]

end RiscvSim
