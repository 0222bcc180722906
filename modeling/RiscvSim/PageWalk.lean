import RiscvSim.TableWords
import RiscvSim.PageTable

namespace RiscvSim

open Results BitFields

namespace Sv32

/-- An entry a walk meets, at its full physical address. -/
structure Entry where
  level : ℕ
  addr : ℕ
  pte : Pte

/-- The entries the walk for `va` meets in memory of `size` bytes; one that the memory does not
hold ends it. -/
def entries (mem : ℕ → U8) (size : ℕ) (va : U32) : ℕ → ℕ → List Entry
  | level, ppn =>
    let e : Entry := ⟨level, ppn * 4096 + 4 * vpn va level, entry mem ppn level va⟩
    e :: if e.addr + 4 < size ∧ e.pte.valid = true ∧ e.pte.leaf = false then
        match level with
        | 0 => []
        | level + 1 => entries mem size va level e.pte.ppn
      else []

def Pte.grants (pte : Pte) (acc : AccessType) : Bool :=
  match acc with
  | .READ => pte.R
  | .WRITE => pte.W
  | .EXEC => pte.X

def Entry.Broken (e : Entry) : Prop := e.pte.valid = false ∨ (e.level = 0 ∧ e.pte.leaf = false)

/-- A leaf that refuses the access, or names no 4 MiB page. -/
def Entry.Refuses (e : Entry) (acc : AccessType) : Prop :=
  e.pte.leaf = true ∧
    (e.pte.grants acc = false ∨ (e.level = 1 ∧ e.pte.word.extractLsb' 10 10 ≠ 0))

instance (e : Entry) : Decidable e.Broken := inferInstanceAs (Decidable (_ ∨ _))

instance (e : Entry) (acc : AccessType) : Decidable (e.Refuses acc) := inferInstanceAs (Decidable (_ ∧ _))

def Marked (acc : AccessType) (word word' : U32) : Prop :=
  ∀ i < 32, word'.getLsbD i = (word.getLsbD i || i == 6 || (acc == .WRITE && i == 7))

end Sv32

open Sv32

namespace MMU

/-- The entries of the walk for `va`. -/
def entries (mmu : MMU) (va : U32) : List Entry :=
  Sv32.entries mmu.pmem_ mmu.pmem_size_ va 1 mmu.rootPpn

section

variable {mmu : MMU} {va : U32} {i ppn : ℕ} {table_pa : U64}

variable (mmu va) in
theorem getMemPtr_entry (hi : i ≤ 1) (ht : table_pa.toNat = ppn * 4096 % 2 ^ 32) :
    mmu.getMemPtr 4 (table_pa + (ptesize * MMU.vpn va i).setWidth 64) =
      let ptr := (ppn * 4096 + 4 * Sv32.vpn va i) % 2 ^ 32
      if mmu.pmem_size_ ≤ ptr + 4 then .error (.simException "Address is out of memory")
      else .ok ptr := by
  have hv := toNat_vpn va hi
  have hlt : Sv32.vpn va i < 2 ^ 10 := Nat.mod_lt _ (by decide)
  have hp : ((table_pa + (ptesize * MMU.vpn va i).setWidth 64).setWidth 32 : U32).toNat =
      (ppn * 4096 + 4 * Sv32.vpn va i) % 2 ^ 32 := by
    rw [BitVec.toNat_setWidth, BitVec.toNat_add, setWidth_toNat (by decide), BitVec.toNat_mul, hv, ht]
    simp only [ptesize, BitVec.toNat_ofNat]
    omega
  rw [getMemPtr, hp]

theorem toNat_nextTable (w : U32) :
    ((w >>> 10 * pagesize).setWidth 64 : U64).toNat = (⟨w⟩ : Pte).ppn * 4096 % 2 ^ 32 := by
  rw [setWidth_toNat (by decide), BitVec.toNat_mul, BitVec.toNat_ushiftRight,
    Nat.shiftRight_eq_div_pow]
  rfl

theorem toNat_rootTable (mmu : MMU) : mmu.rootTable.toNat = mmu.rootPpn * 4096 % 2 ^ 32 := by
  rw [rootTable, setWidth_toNat (by decide), BitVec.toNat_mul, toNat_and_mask _ (k := 22) rfl]
  rfl

theorem entries_eq (mem : ℕ → U8) (size : ℕ) (va : U32) (level ppn : ℕ) : ∃ e : Entry,
    e = ⟨level, ppn * 4096 + 4 * Sv32.vpn va level, entry mem ppn level va⟩ ∧
    Sv32.entries mem size va level ppn =
      e :: if e.addr + 4 < size ∧ e.pte.valid = true ∧ e.pte.leaf = false then
          match level with
          | 0 => []
          | level + 1 => Sv32.entries mem size va level e.pte.ppn
        else [] := by
  refine ⟨_, rfl, ?_⟩
  cases level <;> rfl

theorem walk_step (hi : i ≤ 1) (ht : table_pa.toNat = ppn * 4096 % 2 ^ 32) {e : Entry}
    (he : e = ⟨i, ppn * 4096 + 4 * Sv32.vpn va i, entry mmu.pmem_ ppn i va⟩)
    (hb : e.addr < 2 ^ 32 ∧ e.addr + 4 < mmu.pmem_size_) :
    mmu.walk va i table_pa =
      if e.pte.valid = false then .error (.simException "page fault valid or R W")
      else if e.pte.leaf then .ok (e.addr, e.level)
      else match i with
        | 0 => .error (.simException "page fault i < 0")
        | i + 1 => mmu.walk va i ((e.pte.word >>> 10 * pagesize).setWidth 64) := by
  subst he
  dsimp only at hb ⊢
  have hp := getMemPtr_entry mmu va hi ht
  dsimp only at hp
  rw [Nat.mod_eq_of_lt hb.1, if_neg (Nat.not_le_of_lt hb.2)] at hp
  rw [walk_eq, hp]
  rfl

/-- With every entry in reach the walk stops at a broken one, or leaves with the leaf. -/
theorem walk_entries (hi : i ≤ 1) (ht : table_pa.toNat = ppn * 4096 % 2 ^ 32)
    (hb : ∀ e ∈ Sv32.entries mmu.pmem_ mmu.pmem_size_ va i ppn,
      e.addr < 2 ^ 32 ∧ e.addr + 4 < mmu.pmem_size_) :
    (∃ what, mmu.walk va i table_pa = .error (.simException what) ∧
      ∃ e ∈ Sv32.entries mmu.pmem_ mmu.pmem_size_ va i ppn, e.Broken) ∨
    ∃ e ∈ Sv32.entries mmu.pmem_ mmu.pmem_size_ va i ppn,
      mmu.walk va i table_pa = .ok (e.addr, e.level) ∧ e.pte = ⟨mmu.pteAt e.addr⟩ ∧ e.level ≤ 1 ∧
        e.pte.leaf = true ∧ ∀ e' ∈ Sv32.entries mmu.pmem_ mmu.pmem_size_ va i ppn,
          ¬ e'.Broken ∧ (e'.pte.leaf = true → e' = e) := by
  induction i generalizing ppn table_pa with
  | zero =>
    obtain ⟨e, he, hentries⟩ := entries_eq mmu.pmem_ mmu.pmem_size_ va 0 ppn
    rw [hentries] at hb ⊢
    rw [walk_step hi ht he (hb e List.mem_cons_self), ite_self]
    have hlevel : e.level = 0 := by rw [he]
    by_cases hv : e.pte.valid = false
    · rw [if_pos hv]
      exact .inl ⟨_, rfl, e, List.mem_cons_self, .inl hv⟩
    · rw [if_neg hv]
      by_cases hl : e.pte.leaf = true
      · rw [if_pos hl]
        refine .inr ⟨e, List.mem_cons_self, rfl, by rw [he]; rfl, by omega, hl, ?_⟩
        intro e' he'
        rw [List.mem_singleton.mp he']
        refine ⟨?_, fun _ ↦ rfl⟩
        rintro (hbad | ⟨-, hbad⟩)
        · exact hv hbad
        · rw [hl] at hbad
          cases hbad
      · rw [if_neg hl]
        exact .inl ⟨_, rfl, e, List.mem_cons_self, .inr ⟨hlevel, by simpa using hl⟩⟩
  | succ i ih =>
    obtain ⟨e, he, hentries⟩ := entries_eq mmu.pmem_ mmu.pmem_size_ va (i + 1) ppn
    rw [hentries] at hb ⊢
    have hfits := hb e List.mem_cons_self
    rw [walk_step hi ht he hfits]
    have hlevel : e.level = i + 1 := by rw [he]
    by_cases hv : e.pte.valid = false
    · rw [if_pos hv]
      exact .inl ⟨_, rfl, e, List.mem_cons_self, .inl hv⟩
    · rw [if_neg hv]
      by_cases hl : e.pte.leaf = true
      · rw [if_pos hl, if_neg (by simp [hl])]
        refine .inr ⟨e, List.mem_cons_self, rfl, by rw [he]; rfl, by omega, hl, ?_⟩
        intro e' he'
        rw [List.mem_singleton.mp he']
        refine ⟨?_, fun _ ↦ rfl⟩
        rintro (hbad | ⟨-, hbad⟩)
        · exact hv hbad
        · rw [hl] at hbad
          cases hbad
      · have hgo : e.addr + 4 < mmu.pmem_size_ ∧ e.pte.valid = true ∧ e.pte.leaf = false :=
          ⟨hfits.2, by simpa using hv, by simpa using hl⟩
        rw [if_neg hl, if_pos hgo]
        rw [if_pos hgo] at hb
        have hrest := ih (by omega) (toNat_nextTable e.pte.word)
          fun e' he' ↦ hb e' (List.mem_cons_of_mem _ he')
        rcases hrest with ⟨what, hw, e', he', hbad⟩ | ⟨e', he', hw, hpte, hle, hleaf, hall⟩
        · exact .inl ⟨what, hw, e', List.mem_cons_of_mem _ he', hbad⟩
        · refine .inr ⟨e', List.mem_cons_of_mem _ he', hw, hpte, hle, hleaf, ?_⟩
          intro e'' he''
          rcases List.mem_cons.mp he'' with rfl | he''
          · refine ⟨?_, fun h ↦ absurd h hl⟩
            rintro (hbad | ⟨hzero, -⟩)
            · exact hv hbad
            · omega
          · exact hall e'' he''

end

theorem allows_eq (acc : AccessType) (w : U32) : allows acc w = (⟨w⟩ : Pte).grants acc := by
  have hbit : ∀ {k : ℕ} {m : U32}, k < 32 → m = BitVec.twoPow 32 k → (w &&& m != 0#32) = w.getLsbD k := by
    intro k m hk hm
    rw [Bool.eq_iff_iff, bne_iff_ne, ne_eq, bit_eq_zero_iff w hk hm, Bool.not_eq_false]
  cases acc with
  | READ => exact hbit (by decide) rfl
  | WRITE => exact hbit (by decide) rfl
  | EXEC => exact hbit (by decide) rfl

theorem lowFrame_iff (w : U32) : w >>> 10 &&& 0x3ff#32 ≠ 0#32 ↔ w.extractLsb' 10 10 ≠ 0 := by
  have hcut : w >>> 10 &&& 0x3ff#32 = (w.extractLsb' 10 10).setWidth 32 := by
    apply BitVec.eq_of_toNat_eq
    rw [toNat_and_mask _ (k := 10) rfl, setWidth_toNat (by decide), BitVec.extractLsb'_toNat,
      BitVec.toNat_ushiftRight]
  rw [hcut, ne_eq, ne_eq, ← BitVec.toNat_inj, ← BitVec.toNat_inj, setWidth_toNat (by decide)]
  rfl

theorem getLsbD_or_bit (w : U32) {k i : ℕ} {m : U32} (hk : k < 32) (hm : m = BitVec.twoPow 32 k) :
    (w ||| m).getLsbD i = (w.getLsbD i || i == k) := by
  rw [hm, BitVec.getLsbD_or, BitVec.getLsbD_twoPow, decide_eq_true hk, Bool.true_and]
  congr 1
  exact decide_eq_decide.mpr eq_comm

theorem marked_touch (acc : AccessType) (w : U32) : Marked acc w (touch acc w) := by
  intro i _
  have h64 (w : U32) : (w ||| 64#32).getLsbD i = (w.getLsbD i || i == 6) :=
    getLsbD_or_bit w (k := 6) (by decide) rfl
  have h128 (w : U32) : (w ||| 128#32).getLsbD i = (w.getLsbD i || i == 7) :=
    getLsbD_or_bit w (k := 7) (by decide) rfl
  cases acc with
  | WRITE =>
    rw [touch, h128, h64]
    rfl
  | READ => exact (h64 w).trans (Bool.or_false _).symm
  | EXEC => exact (h64 w).trans (Bool.or_false _).symm

theorem leafOf_entry {mmu : MMU} {va : U32} {e : Entry} (acc : AccessType)
    (hw : mmu.walk va 1 mmu.rootTable = .ok (e.addr, e.level)) (hpte : e.pte = ⟨mmu.pteAt e.addr⟩)
    (hle : e.level ≤ 1) (hleaf : e.pte.leaf = true) :
    (¬ e.Refuses acc ∧ mmu.leafOf va acc = .ok (e.addr, e.level)) ∨
      (e.Refuses acc ∧ mmu.leafOf va acc = .error (.simException "page fault")) := by
  have hword : e.pte.word = mmu.pteAt e.addr := by rw [hpte]
  have hallows : allows acc e.pte.word = e.pte.grants acc := allows_eq acc e.pte.word
  rw [leafOf, hw]
  simp only [bind, Except.bind, ← hword, hallows, lowFrame_iff]
  by_cases hg : e.pte.grants acc = false
  · exact .inr ⟨⟨hleaf, .inl hg⟩, if_pos hg⟩
  · rw [if_neg hg]
    by_cases hm : e.level ≠ 0 ∧ e.pte.word.extractLsb' 10 10 ≠ 0
    · exact .inr ⟨⟨hleaf, .inr ⟨by omega, hm.2⟩⟩, if_pos hm⟩
    · refine .inl ⟨?_, if_neg hm⟩
      rintro ⟨-, hbad | ⟨hone, hbad⟩⟩
      · exact hg hbad
      · exact hm ⟨by omega, hbad⟩

/-- With the whole walk in reach a translation throws exactly for a broken entry or a leaf that
refuses the access; it throws before it writes, and otherwise marks the leaf and nothing else. -/
theorem translate_faults_iff (mmu : MMU) (hv : mmu.isVirtualAddressing = true) (va : U32)
    (acc : AccessType) (hb : ∀ e ∈ mmu.entries va,
      e.addr < 2 ^ 32 ∧ mmu.getMemPtr 4 (BitVec.ofNat 64 e.addr) = .ok e.addr) :
    ((∃ e m, (translate va acc).run mmu = .error e m) ↔
      ∃ e ∈ mmu.entries va, e.Broken ∨ e.Refuses acc) ∧
    (∀ e m, (translate va acc).run mmu = .error e m → (∃ what, e = .simException what) ∧ m = mmu) ∧
    ∀ pa m, (translate va acc).run mmu = .ok pa m → ∃ e ∈ mmu.entries va, ∃ word,
      e.pte.leaf = true ∧ Marked acc e.pte.word word ∧ m = mmu.writeMem (n := 4) e.addr word := by
  have hfits : ∀ e ∈ mmu.entries va, e.addr < 2 ^ 32 ∧ e.addr + 4 < mmu.pmem_size_ := by
    intro e he
    obtain ⟨hlt, hp⟩ := hb e he
    have haddr : ((BitVec.ofNat 64 e.addr).setWidth 32 : U32).toNat = e.addr := by
      rw [BitVec.toNat_setWidth, BitVec.toNat_ofNat]
      omega
    rw [getMemPtr, haddr] at hp
    split at hp
    · cases hp
    · exact ⟨hlt, by omega⟩
  rw [translate_run hv]
  rcases walk_entries (le_refl 1) (toNat_rootTable mmu) hfits with
    ⟨what, hw, e, he, hbad⟩ | ⟨e, he, hw, hpte, hle, hleaf, hall⟩
  · have hl : mmu.leafOf va acc = .error (.simException what) := by
      rw [leafOf, hw]
      rfl
    rw [hl]
    refine ⟨iff_of_true ⟨_, _, rfl⟩ ⟨e, he, .inl hbad⟩, ?_, ?_⟩
    · intro e m h
      cases h
      exact ⟨⟨what, rfl⟩, rfl⟩
    · intro pa m h
      cases h
  · rcases leafOf_entry acc hw hpte hle hleaf with ⟨hgrants, hl⟩ | ⟨hrefuses, hl⟩
    · rw [hl]
      refine ⟨iff_of_false ?_ ?_, ?_, ?_⟩
      · rintro ⟨e, m, h⟩
        cases h
      · rintro ⟨e', he', hbad | hbad⟩
        · exact (hall e' he').1 hbad
        · rw [(hall e' he').2 hbad.1] at hbad
          exact hgrants hbad
      · intro e m h
        cases h
      · intro pa m h
        cases h
        refine ⟨e, he, _, hleaf, ?_, rfl⟩
        rw [hpte]
        exact marked_touch acc _
    · rw [hl]
      refine ⟨iff_of_true ⟨_, _, rfl⟩ ⟨e, he, .inr hrefuses⟩, ?_, ?_⟩
      · intro e m h
        cases h
        exact ⟨⟨_, rfl⟩, rfl⟩
      · intro pa m h
        cases h

/-- A store to the second page is granted and marks its entry; there is no third page. -/
theorem translate_faults_iff_oddFrame :
    (∃ pa m, (translate 0x1004#32 .WRITE).run oddFrame = .ok pa m ∧
      ∃ e ∈ oddFrame.entries 0x1004#32, ∃ word, Marked .WRITE e.pte.word word ∧
        m = oddFrame.writeMem (n := 4) e.addr word) ∧
    ∃ what, (translate 0x2004#32 .WRITE).run oddFrame = .error (.simException what) oddFrame := by
  constructor
  · obtain ⟨hfaults, -, hmarks⟩ := translate_faults_iff oddFrame (by decide) 0x1004#32 .WRITE (by decide)
    cases hrun : (translate 0x1004#32 .WRITE).run oddFrame with
    | ok pa m =>
      obtain ⟨e, he, word, -, hword, hm⟩ := hmarks pa m hrun
      exact ⟨pa, m, rfl, e, he, word, hword, hm⟩
    | error e m =>
      obtain ⟨e, he, hbad⟩ := hfaults.mp ⟨e, m, hrun⟩
      have hgranted : ∀ e ∈ oddFrame.entries 0x1004#32, ¬ (e.Broken ∨ e.Refuses .WRITE) := by decide
      exact absurd hbad (hgranted e he)
  · obtain ⟨hfaults, hthrows, -⟩ := translate_faults_iff oddFrame (by decide) 0x2004#32 .WRITE (by decide)
    obtain ⟨e, m, hrun⟩ := hfaults.mpr (by decide)
    obtain ⟨⟨what, rfl⟩, rfl⟩ := hthrows e m hrun
    exact ⟨what, hrun⟩

end MMU

end RiscvSim
