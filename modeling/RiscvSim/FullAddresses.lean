import RiscvSim.PageWalk
import RiscvSim.Tlb
import RiscvSim.Frames

namespace RiscvSim.MMU

open Results BitFields Sv32

/-- The address an access of this type finds for `va`: in its TLB, or through the page table
when the TLB has room for it. -/
def Names (m : MMU) (acc : AccessType) (va : U32) (pa : U64) : Prop :=
  match ((tlbOf acc).get m).links_ va with
  | some addr => ((tlbOf acc).get m).deref addr = some pa
  | none => (∃ c, ((tlbOf acc).get m).makeRoom = .ok c) ∧
      ∃ ptr i, m.leafOf va acc = .ok (ptr, i) ∧ pa = leafAddr va (touch acc (m.pteAt ptr)) i

/-- The address lies below 4 GiB, or its low 32 bits are out of memory. -/
def Unwrapped (m : MMU) (n pa : ℕ) : Prop := pa < 2 ^ 32 ∨ m.pmem_size_ ≤ pa % 2 ^ 32 + n

structure FullAddresses (a : Access) (m : MMU) : Prop where
  walk : ((tlbOf a.type).get m).links_ a.va = none → m.walkPtrs a.va 1 m.rootTable =
    ((m.entries a.va).map (·.addr)).filter fun addr ↦ addr + 4 < m.pmem_size_
  data : ∀ pa m', (physAddr (tlbOf a.type) a.va a.type).run m = .ok pa m' →
    ∀ ptr, m'.getMemPtr a.size pa = .ok ptr → ptr = pa.toNat

section

variable {m : MMU} {acc : AccessType} {va : U32}

theorem physAddr_ok_iff (hv : m.isVirtualAddressing = true) {pa : U64} :
    (∃ m', (physAddr (tlbOf acc) va acc).run m = .ok pa m') ↔ m.Names acc va pa := by
  unfold Names
  cases hl : ((tlbOf acc).get m).links_ va with
  | some addr =>
    rw [physAddr_of_link hv hl]
    dsimp only [LRUCache.deref]
    cases ((tlbOf acc).get m).entries_.find? fun e ↦ e.addr = addr with
    | none => simp
    | some e => simp [eq_comm]
  | none =>
    rw [physAddr_of_no_link hv hl]
    dsimp only
    cases ((tlbOf acc).get m).makeRoom with
    | error e => simp
    | ok c =>
      cases m.leafOf va acc with
      | error e => simp
      | ok r =>
        obtain ⟨ptr, i⟩ := r
        simp [eq_comm]

theorem getMemPtr_run (m : MMU) (n : ℕ) (pa : U64) : m.getMemPtr n pa =
    if m.pmem_size_ ≤ pa.toNat % 2 ^ 32 + n then .error (.simException "Address is out of memory")
    else .ok (pa.toNat % 2 ^ 32) := by
  rw [getMemPtr, BitVec.toNat_setWidth]

theorem getMemPtr_full_iff (n : ℕ) (pa : U64) :
    (∀ ptr, m.getMemPtr n pa = .ok ptr → ptr = pa.toNat) ↔ m.Unwrapped n pa.toNat := by
  rw [getMemPtr_run, Unwrapped]
  by_cases hout : m.pmem_size_ ≤ pa.toNat % 2 ^ 32 + n
  · rw [if_pos hout]
    refine iff_of_true ?_ (.inr hout)
    intro ptr h
    cases h
  · rw [if_neg hout]
    constructor
    · intro h
      have heq := h _ rfl
      omega
    · rintro (hlt | hbad) ptr h
      · cases h
        exact Nat.mod_eq_of_lt hlt
      · exact absurd hbad hout

theorem isPointer_iff (w : U32) :
    isPointer w ↔ (⟨w⟩ : Pte).valid = true ∧ (⟨w⟩ : Pte).leaf = false := by
  rw [isPointer, invalid_iff, leaf_iff, Bool.not_eq_false, Bool.not_eq_true]

theorem reads_cons_iff (hsize : m.pmem_size_ ≤ 2 ^ 32) {e : Entry} {es : List Entry}
    {rest : ℕ → List ℕ} (hstop : ¬ e.addr + 4 < m.pmem_size_ → es = [])
    (hrest : e.addr + 4 < m.pmem_size_ →
      (rest e.addr = (es.map (·.addr)).filter (fun addr ↦ addr + 4 < m.pmem_size_) ↔
        ∀ e ∈ es, m.Unwrapped 4 e.addr)) :
    (match (if m.pmem_size_ ≤ e.addr % 2 ^ 32 + 4 then
        Except.error (Stop.simException "Address is out of memory") else .ok (e.addr % 2 ^ 32)) with
      | .error _ => []
      | .ok ptr => ptr :: rest ptr) =
        ((e :: es).map (·.addr)).filter (fun addr ↦ addr + 4 < m.pmem_size_) ↔
      ∀ e' ∈ e :: es, m.Unwrapped 4 e'.addr := by
  rw [List.forall_mem_cons, List.map_cons]
  by_cases hin : e.addr + 4 < m.pmem_size_
  · have hlt : e.addr < 2 ^ 32 := by omega
    rw [Nat.mod_eq_of_lt hlt, if_neg (Nat.not_le_of_lt hin), List.filter_cons_of_pos (by simpa using hin)]
    dsimp only
    rw [List.cons_eq_cons, hrest hin]
    exact and_congr_left' (iff_of_true rfl (.inl hlt))
  · rw [hstop hin, List.filter_cons_of_neg (by simpa using hin)]
    by_cases hout : m.pmem_size_ ≤ e.addr % 2 ^ 32 + 4
    · rw [if_pos hout]
      refine iff_of_true rfl ⟨.inr hout, ?_⟩
      intro e' he'
      cases he'
    · rw [if_neg hout]
      refine iff_of_false (List.cons_ne_nil _ _) ?_
      rintro ⟨hlt | hbad, -⟩
      · rw [Nat.mod_eq_of_lt hlt] at hout
        omega
      · exact hout hbad

theorem walkPtrs_full_iff (hsize : m.pmem_size_ ≤ 2 ^ 32) {i ppn : ℕ} {table_pa : U64} (hi : i ≤ 1)
    (ht : table_pa.toNat = ppn * 4096 % 2 ^ 32) :
    m.walkPtrs va i table_pa = ((Sv32.entries m.pmem_ m.pmem_size_ va i ppn).map (·.addr)).filter
        (fun addr ↦ addr + 4 < m.pmem_size_) ↔
      ∀ e ∈ Sv32.entries m.pmem_ m.pmem_size_ va i ppn, m.Unwrapped 4 e.addr := by
  induction i generalizing ppn table_pa with
  | zero =>
    obtain ⟨e, he, hentries⟩ := entries_eq m.pmem_ m.pmem_size_ va 0 ppn
    have hp := getMemPtr_entry m va hi ht
    rw [show ppn * 4096 + 4 * Sv32.vpn va 0 = e.addr by rw [he]] at hp
    rw [hentries, walkPtrs, hp]
    apply reads_cons_iff hsize
    · intro hstop
      exact if_neg fun h ↦ hstop h.1
    · intro _
      simp
  | succ i ih =>
    obtain ⟨e, he, hentries⟩ := entries_eq m.pmem_ m.pmem_size_ va (i + 1) ppn
    have hp := getMemPtr_entry m va hi ht
    rw [show ppn * 4096 + 4 * Sv32.vpn va (i + 1) = e.addr by rw [he]] at hp
    have hpte : e.pte = ⟨m.pteAt e.addr⟩ := by
      rw [he]
      rfl
    have hword : m.pteAt e.addr = e.pte.word := by rw [hpte]
    rw [hentries, walkPtrs, hp]
    apply reads_cons_iff hsize
    · intro hstop
      exact if_neg fun h ↦ hstop h.1
    · intro hin
      have hpointer := isPointer_iff e.pte.word
      by_cases hgo : e.pte.valid = true ∧ e.pte.leaf = false
      · rw [hword, if_pos (hpointer.mpr hgo), if_pos ⟨hin, hgo⟩]
        exact ih (by omega) (toNat_nextTable e.pte.word)
      · rw [hword, if_neg fun h ↦ hgo (hpointer.mp h), if_neg fun h ↦ hgo h.2]
        simp

/-- An access reads and touches full physical addresses exactly when no address of its walk,
nor the one it finds, has low 32 bits that lie in memory in place of the address itself. -/
theorem full_addresses_iff (m : MMU) (hv : m.isVirtualAddressing = true)
    (hsize : m.pmem_size_ ≤ 2 ^ 32) (a : Access) : FullAddresses a m ↔
      (((tlbOf a.type).get m).links_ a.va = none → ∀ e ∈ m.entries a.va, m.Unwrapped 4 e.addr) ∧
      ∀ pa, m.Names a.type a.va pa → m.Unwrapped a.size pa.toNat := by
  have hdata : ∀ pa m', (physAddr (tlbOf a.type) a.va a.type).run m = .ok pa m' →
      ((∀ ptr, m'.getMemPtr a.size pa = .ok ptr → ptr = pa.toNat) ↔ m.Unwrapped a.size pa.toNat) := by
    intro pa m' hrun
    have hset : ∀ c m, SameMode m ((tlbOf a.type).set c m) := fun c m ↦
      ⟨(tlb_set_evolves a.type c m).size, (tlb_set_evolves a.type c m).satp⟩
    have hkeeps := physAddr_keeps (fun _ _ _ _ ↦ ⟨rfl, rfl⟩) hset a.va a.type m
    rw [hrun] at hkeeps
    have hsame : m'.pmem_size_ = m.pmem_size_ := hkeeps.size
    rw [getMemPtr_full_iff, Unwrapped, Unwrapped, hsame]
  constructor
  · intro h
    refine ⟨fun hl ↦ (walkPtrs_full_iff hsize le_rfl (toNat_rootTable m)).mp (h.walk hl), ?_⟩
    intro pa hpa
    obtain ⟨m', hrun⟩ := (physAddr_ok_iff hv).mpr hpa
    exact (hdata pa m' hrun).mp (h.data pa m' hrun)
  · rintro ⟨hwalk, hnames⟩
    refine ⟨fun hl ↦ (walkPtrs_full_iff hsize le_rfl (toNat_rootTable m)).mpr (hwalk hl), ?_⟩
    intro pa m' hrun
    exact (hdata pa m' hrun).mpr (hnames pa ((physAddr_ok_iff hv).mp ⟨m', hrun⟩))

end

theorem full_addresses_iff_oddFrame : FullAddresses (.load 4 0#32) oddFrame := by
  refine (full_addresses_iff oddFrame (by decide) (by decide) (.load 4 0#32)).mpr ⟨fun _ e he ↦ ?_, ?_⟩
  · have hall : ∀ e ∈ oddFrame.entries 0#32, e.addr < 2 ^ 32 := by decide
    exact .inl (hall e he)
  · rintro pa ⟨-, ptr, i, hl, rfl⟩
    have hleaf : oddFrame.leafOf 0#32 .READ = .ok (0x2000, 0) := by rfl
    cases hl.symm.trans hleaf
    exact .inl (by decide)

/-- A table in frame 2 that maps the first page to frame 2 ^ 20 + 4, far above 32 KiB of memory. -/
def farFrame : MMU where
  instTLB_ := .new 4
  dataTLB_ := .new 4
  pmem_size_ := 0x8000
  pmem_ :=
    let mem := Bytes.write (n := 4) (fun _ ↦ 0) 0x1000 0x801#32
    Bytes.write (n := 4) mem 0x2000 0x4000100F#32
  satp := 0x80000001#32

theorem farFrame_wraps : ¬ ∀ m : MMU, m.isVirtualAddressing = true → m.pmem_size_ ≤ 2 ^ 32 →
    ∀ a, FullAddresses a m := by
  intro h
  have hdata := (h farFrame (by decide) (by decide) (.load 4 0#32)).data 0x100004000#64 _ (by rfl)
    0x4000 (by rfl)
  exact absurd hdata (by decide)

end RiscvSim.MMU
