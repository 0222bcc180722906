import RiscvSim.Translate

namespace RiscvSim.MMU

open Results

/-- The walk goes on below this entry. -/
def isPointer (pte : U32) : Prop :=
  ¬ (pte &&& 1#32 = 0#32 ∨ (pte &&& 2#32 = 0#32 ∧ pte &&& 4#32 = 4#32)) ∧
    ¬ (pte &&& 2#32 ≠ 0#32 ∨ pte &&& 8#32 ≠ 0#32)

instance (pte : U32) : Decidable (isPointer pte) := inferInstanceAs (Decidable (_ ∧ _))

/-- The entries the walk for `va` reads. -/
def walkPtrs (mmu : MMU) (va : U32) : ℕ → U64 → List ℕ
  | i, table_pa =>
    match mmu.getMemPtr 4 (table_pa + (ptesize * vpn va i).setWidth 64) with
    | .error _ => []
    | .ok ptr =>
      ptr :: if isPointer (mmu.pteAt ptr) then match i with
        | 0 => []
        | i + 1 => walkPtrs mmu va i ((mmu.pteAt ptr >>> 10 * pagesize).setWidth 64)
      else []

/-- The word at `ptr` belongs to a page table: the walk of some address reads it. -/
def TableWord (mmu : MMU) (ptr : ℕ) : Prop := ∃ va, ptr ∈ mmu.walkPtrs va 1 mmu.rootTable

/-- What a translation does to the entry it touches. -/
def Evolves (pte pte' : U32) : Prop := pte' = pte ∨ ∃ acc, pte' = touch acc pte

theorem touch_and (acc : AccessType) (pte : U32) {m : U32} (hm : 192#32 &&& m = 0#32) :
    touch acc pte &&& m = pte &&& m := by
  have h64 : 64#32 &&& m = 0#32 := by
    rw [show 64#32 = 64#32 &&& 192#32 by decide, BitVec.and_assoc, hm, BitVec.and_zero]
  have h128 : 128#32 &&& m = 0#32 := by
    rw [show 128#32 = 128#32 &&& 192#32 by decide, BitVec.and_assoc, hm, BitVec.and_zero]
  cases acc <;> simp only [touch, BitVec.and_or_distrib_right, h64, h128, BitVec.or_zero]

theorem touch_ushiftRight (acc : AccessType) (pte : U32) : touch acc pte >>> 10 = pte >>> 10 := by
  cases acc <;>
    simp only [touch, BitVec.ushiftRight_or_distrib, show 64#32 >>> 10 = 0#32 by decide,
      show 128#32 >>> 10 = 0#32 by decide, BitVec.or_zero]

theorem Evolves.and {pte pte' m : U32} (h : Evolves pte pte') (hm : 192#32 &&& m = 0#32) :
    pte' &&& m = pte &&& m := by
  rcases h with rfl | ⟨acc, rfl⟩
  · rfl
  · exact touch_and acc pte hm

theorem Evolves.ushiftRight {pte pte' : U32} (h : Evolves pte pte') : pte' >>> 10 = pte >>> 10 := by
  rcases h with rfl | ⟨acc, rfl⟩
  · rfl
  · exact touch_ushiftRight acc pte

theorem Evolves.allows {pte pte' : U32} (h : Evolves pte pte') (acc : AccessType) :
    allows acc pte' = allows acc pte := by
  cases acc with
  | READ => simp only [MMU.allows, h.and (m := 2#32) (by decide)]
  | WRITE => simp only [MMU.allows, h.and (m := 4#32) (by decide)]
  | EXEC => simp only [MMU.allows, h.and (m := 8#32) (by decide)]

theorem Evolves.isPointer {pte pte' : U32} (h : Evolves pte pte') : isPointer pte' ↔ isPointer pte := by
  rw [MMU.isPointer, MMU.isPointer, h.and (m := 1#32) (by decide), h.and (m := 2#32) (by decide),
    h.and (m := 4#32) (by decide), h.and (m := 8#32) (by decide)]

theorem touch_eq_or (acc : AccessType) (pte : U32) : touch acc pte = pte ||| touch acc 0#32 := by
  cases acc with
  | READ | EXEC => simp only [touch, BitVec.zero_or]
  | WRITE => simp only [touch, BitVec.zero_or, BitVec.or_assoc]

theorem touch_touch (acc acc' : AccessType) (pte : U32) :
    touch acc (touch acc' pte) = touch acc' (touch acc pte) := by
  rw [touch_eq_or acc, touch_eq_or acc' pte, touch_eq_or acc' (touch acc pte), touch_eq_or acc pte,
    BitVec.or_assoc, BitVec.or_assoc, BitVec.or_comm (touch acc' 0#32)]

theorem touch_idem (acc : AccessType) (pte : U32) : touch acc (touch acc pte) = touch acc pte := by
  rw [touch_eq_or acc (touch acc pte), touch_eq_or acc pte, BitVec.or_assoc, BitVec.or_self]

theorem Evolves.touch_eq {pte pte' : U32} (h : Evolves pte pte') {acc : AccessType}
    (ht : touch acc pte = pte) : touch acc pte' = pte' := by
  rcases h with rfl | ⟨acc', rfl⟩
  · exact ht
  · rw [touch_touch, ht]

theorem walk_mem {mmu : MMU} {va : U32} {i ptr j : ℕ} {table_pa : U64}
    (h : mmu.walk va i table_pa = .ok (ptr, j)) : ptr ∈ mmu.walkPtrs va i table_pa := by
  induction i generalizing table_pa with
  | zero =>
    rw [walk] at h
    obtain ⟨p, hp, h⟩ := bind_eq_ok.mp h
    rw [walkPtrs, hp]
    dsimp only at h ⊢
    split at h
    · cases h
    · split at h
      · cases h
        exact List.mem_cons_self
      · cases h
  | succ i ih =>
    rw [walk] at h
    obtain ⟨p, hp, h⟩ := bind_eq_ok.mp h
    rw [walkPtrs, hp]
    dsimp only at h ⊢
    split at h
    · cases h
    · next hv =>
      split at h
      · cases h
        exact List.mem_cons_self
      · next hl =>
        rw [if_pos (show isPointer (mmu.pteAt p) from ⟨hv, hl⟩)]
        exact List.mem_cons_of_mem _ (ih h)

theorem walk_valid {mmu : MMU} {va : U32} {i ptr j : ℕ} {table_pa : U64}
    (h : mmu.walk va i table_pa = .ok (ptr, j)) :
    ¬ (mmu.pteAt ptr &&& 1#32 = 0#32 ∨
      (mmu.pteAt ptr &&& 2#32 = 0#32 ∧ mmu.pteAt ptr &&& 4#32 = 4#32)) := by
  induction i generalizing table_pa with
  | zero =>
    rw [walk] at h
    obtain ⟨p, hp, h⟩ := bind_eq_ok.mp h
    dsimp only at h
    split at h
    · cases h
    · next hv =>
      split at h <;> cases h
      exact hv
  | succ i ih =>
    rw [walk] at h
    obtain ⟨p, hp, h⟩ := bind_eq_ok.mp h
    dsimp only at h
    split at h
    · cases h
    · next hv =>
      split at h
      · cases h
        exact hv
      · exact ih h

/-- The walk looks at the entries it reads only, and not at their accessed and dirty bits. -/
theorem walk_congr {m m' : MMU} (hs : m'.pmem_size_ = m.pmem_size_) {va : U32} {i : ℕ}
    {table_pa : U64} (h : ∀ ptr ∈ m.walkPtrs va i table_pa, Evolves (m.pteAt ptr) (m'.pteAt ptr)) :
    m'.walk va i table_pa = m.walk va i table_pa ∧
      m'.walkPtrs va i table_pa = m.walkPtrs va i table_pa := by
  have hg : ∀ pa, m'.getMemPtr 4 pa = m.getMemPtr 4 pa := fun pa ↦ by rw [getMemPtr, getMemPtr, hs]
  induction i generalizing table_pa with
  | zero =>
    rw [walk, walk, walkPtrs, walkPtrs, hg]
    rw [walkPtrs] at h
    cases hp : m.getMemPtr 4 (table_pa + (ptesize * vpn va 0).setWidth 64) with
    | error e => simp only [bind, Except.bind, and_self]
    | ok ptr =>
      rw [hp] at h
      have he : Evolves (m.readMem 4 ptr) (m'.readMem 4 ptr) := h ptr List.mem_cons_self
      refine ⟨?_, by simp only [ite_self]⟩
      simp only [bind, Except.bind]
      rw [he.and (m := 1#32) (by decide), he.and (m := 2#32) (by decide),
        he.and (m := 4#32) (by decide), he.and (m := 8#32) (by decide)]
  | succ i ih =>
    rw [walk, walk, walkPtrs, walkPtrs, hg]
    rw [walkPtrs] at h
    cases hp : m.getMemPtr 4 (table_pa + (ptesize * vpn va (i + 1)).setWidth 64) with
    | error e => simp only [bind, Except.bind, and_self]
    | ok ptr =>
      rw [hp] at h
      have he : Evolves (m.readMem 4 ptr) (m'.readMem 4 ptr) := h ptr List.mem_cons_self
      have hpt' : isPointer (m'.pteAt ptr) ↔ isPointer (m.pteAt ptr) := he.isPointer
      have hn : m'.pteAt ptr >>> 10 = m.pteAt ptr >>> 10 := he.ushiftRight
      simp only [bind, Except.bind]
      rw [he.and (m := 1#32) (by decide), he.and (m := 2#32) (by decide),
        he.and (m := 4#32) (by decide), he.and (m := 8#32) (by decide), he.ushiftRight]
      by_cases hpt : isPointer (m.pteAt ptr)
      · obtain ⟨h₁, h₂⟩ := ih fun q hq ↦ h q (List.mem_cons_of_mem _ (by rw [if_pos hpt]; exact hq))
        rw [if_pos hpt, if_pos (hpt'.mpr hpt), hn, h₂]
        rw [pteAt] at h₁
        exact ⟨by rw [h₁], rfl⟩
      · rw [if_neg hpt, if_neg (mt hpt'.mp hpt)]
        refine ⟨?_, rfl⟩
        split
        · rfl
        · next hv =>
          have hl := not_not.mp fun hl ↦ hpt ⟨hv, hl⟩
          rw [pteAt] at hl
          rw [if_pos hl, if_pos hl]

theorem walkPtrs_aligned {mmu : MMU} {va : U32} {i ptr : ℕ} {table_pa : U64}
    (ht : table_pa.toNat % 4 = 0) (h : ptr ∈ mmu.walkPtrs va i table_pa) : ptr % 4 = 0 := by
  have hnext : ∀ w : U32, ((w * pagesize).setWidth 64 : U64).toNat % 4 = 0 := by
    intro w
    rw [BitVec.toNat_setWidth, BitVec.toNat_mul, pagesize, BitVec.toNat_ofNat]
    omega
  have hg : ∀ (j p : ℕ) (t : U64), t.toNat % 4 = 0 →
      mmu.getMemPtr 4 (t + (ptesize * vpn va j).setWidth 64) = .ok p → p % 4 = 0 := by
    intro j p t ht hp
    rw [getMemPtr] at hp
    split at hp
    · cases hp
    · cases hp
      rw [BitVec.toNat_setWidth, BitVec.toNat_add, BitVec.toNat_setWidth, BitVec.toNat_mul, ptesize,
        BitVec.toNat_ofNat]
      omega
  induction i generalizing table_pa with
  | zero =>
    rw [walkPtrs] at h
    cases hp : mmu.getMemPtr 4 (table_pa + (ptesize * vpn va 0).setWidth 64) with
    | error e => rw [hp] at h; cases h
    | ok p =>
      simp only [hp, ite_self, List.mem_singleton] at h
      rw [h]
      exact hg _ _ _ ht hp
  | succ i ih =>
    rw [walkPtrs] at h
    cases hp : mmu.getMemPtr 4 (table_pa + (ptesize * vpn va (i + 1)).setWidth 64) with
    | error e => rw [hp] at h; cases h
    | ok p =>
      rw [hp] at h
      rcases List.mem_cons.mp h with rfl | h
      · exact hg _ _ _ ht hp
      · split at h
        · exact ih (hnext _) h
        · cases h

theorem TableWord.aligned {mmu : MMU} {ptr : ℕ} (h : mmu.TableWord ptr) : ptr % 4 = 0 := by
  obtain ⟨va, h⟩ := h
  refine walkPtrs_aligned ?_ h
  rw [rootTable, BitVec.toNat_setWidth, BitVec.toNat_mul, pagesize, BitVec.toNat_ofNat]
  omega

/-- Another memory in which every table word is as it was, or touched. -/
structure TablesEvolve (m m' : MMU) : Prop where
  size : m'.pmem_size_ = m.pmem_size_
  satp : m'.satp = m.satp
  words : ∀ ptr, m.TableWord ptr → Evolves (m.pteAt ptr) (m'.pteAt ptr)

theorem TablesEvolve.rootTable {m m' : MMU} (h : TablesEvolve m m') : m'.rootTable = m.rootTable := by
  rw [MMU.rootTable, MMU.rootTable, h.satp]

theorem TablesEvolve.walk {m m' : MMU} (h : TablesEvolve m m') (va : U32) :
    m'.walk va 1 m'.rootTable = m.walk va 1 m.rootTable := by
  rw [h.rootTable]
  exact (walk_congr h.size fun ptr hp ↦ h.words ptr ⟨va, hp⟩).1

theorem TablesEvolve.leafOf {m m' : MMU} (h : TablesEvolve m m') (va : U32) (acc : AccessType) :
    m'.leafOf va acc = m.leafOf va acc := by
  rw [MMU.leafOf, MMU.leafOf, h.walk]
  cases hw : m.walk va 1 m.rootTable with
  | error e => rfl
  | ok r =>
    have he := h.words r.1 ⟨va, walk_mem hw⟩
    simp only [bind, Except.bind]
    rw [he.allows, he.ushiftRight]

/-- The translation of `va` finds `pa` and nothing left to write. -/
def Settled (mmu : MMU) (va : U32) (acc : AccessType) (pa : U64) : Prop :=
  ∃ ptr i, mmu.leafOf va acc = .ok (ptr, i) ∧ touch acc (mmu.pteAt ptr) = mmu.pteAt ptr ∧
    pa = leafAddr va (mmu.pteAt ptr) i

theorem Settled.translate {mmu : MMU} {va : U32} {acc : AccessType} {pa : U64}
    (h : mmu.Settled va acc pa) (hv : mmu.isVirtualAddressing = true) :
    (MMU.translate va acc).run mmu = .ok pa mmu := by
  obtain ⟨ptr, i, hl, ht, rfl⟩ := h
  refine (translate_eq_ok hv).mpr ⟨ptr, i, hl, by rw [ht], ?_⟩
  rw [ht, writeMem, pteAt, readMem, Bytes.write_read_self]

theorem Settled.evolve {m m' : MMU} (h : TablesEvolve m m') {va : U32} {acc : AccessType} {pa : U64}
    (hs : m.Settled va acc pa) : m'.Settled va acc pa := by
  obtain ⟨ptr, i, hl, ht, rfl⟩ := hs
  have he := h.words ptr ⟨va, walk_mem (leafOf_eq_ok.mp hl).1⟩
  exact ⟨ptr, i, by rw [h.leafOf, hl], he.touch_eq ht, (leafAddr_congr he.ushiftRight i).symm⟩

theorem pteAt_writeMem {mmu : MMU} {p q : ℕ} (hp : p % 4 = 0) (hq : q % 4 = 0) (w : U32) :
    (mmu.writeMem (n := 4) p w).pteAt q = if q = p then w else mmu.pteAt q := by
  split
  · next h =>
    subst h
    exact Bytes.read_write_self _ _ _
  · next h => exact Bytes.read_write_of_disjoint _ _ (by omega)

/-- Touching the leaf of `va` settles `va` and lets every table evolve. -/
theorem tablesEvolve_touch {mmu : MMU} {va : U32} {acc : AccessType} {ptr i : ℕ}
    (hl : mmu.leafOf va acc = .ok (ptr, i)) :
    TablesEvolve mmu (mmu.writeMem (n := 4) ptr (touch acc (mmu.pteAt ptr))) := by
  have hp : mmu.TableWord ptr := ⟨va, walk_mem (leafOf_eq_ok.mp hl).1⟩
  refine ⟨rfl, rfl, fun q hq ↦ ?_⟩
  rw [pteAt_writeMem hp.aligned hq.aligned]
  split
  · next h => exact .inr ⟨acc, by rw [h]⟩
  · exact .inl rfl

theorem settled_touch {mmu : MMU} {va : U32} {acc : AccessType} {ptr i : ℕ}
    (hl : mmu.leafOf va acc = .ok (ptr, i)) :
    (mmu.writeMem (n := 4) ptr (touch acc (mmu.pteAt ptr))).Settled va acc
      (leafAddr va (touch acc (mmu.pteAt ptr)) i) := by
  have hp : mmu.TableWord ptr := ⟨va, walk_mem (leafOf_eq_ok.mp hl).1⟩
  refine ⟨ptr, i, by rw [(tablesEvolve_touch hl).leafOf, hl], ?_, ?_⟩
  · rw [pteAt_writeMem hp.aligned hp.aligned, if_pos rfl, touch_idem]
  · rw [pteAt_writeMem hp.aligned hp.aligned, if_pos rfl]

/-- What may be written may be read: an entry with W and without R is not valid. -/
theorem Settled.read_of_write {mmu : MMU} {va : U32} {pa : U64} (h : mmu.Settled va .WRITE pa) :
    mmu.Settled va .READ pa := by
  obtain ⟨ptr, i, hl, ht, rfl⟩ := h
  obtain ⟨hw, ha, hm⟩ := leafOf_eq_ok.mp hl
  have hv := walk_valid hw
  refine ⟨ptr, i, leafOf_eq_ok.mpr ⟨hw, ?_, hm⟩, ?_, rfl⟩
  · simp only [allows, bne_iff_ne, ne_eq] at ha ⊢
    intro h2
    have h4 : mmu.pteAt ptr &&& 4#32 = 4#32 := by
      rw [bit_eq_zero_iff _ (m := 4#32) (show 2 < 32 by decide) rfl, Bool.not_eq_false] at ha
      exact (bit_eq_self_iff _ (show 2 < 32 by decide) rfl).mpr ha
    exact hv (.inr ⟨h2, h4⟩)
  · calc touch .READ (mmu.pteAt ptr) = touch .READ (touch .WRITE (mmu.pteAt ptr)) := by rw [ht]
      _ = touch .WRITE (mmu.pteAt ptr) := by
        have hmask : touch .WRITE 0#32 ||| touch .READ 0#32 = touch .WRITE 0#32 := by decide
        rw [touch_eq_or .READ, touch_eq_or .WRITE, BitVec.or_assoc, hmask]
      _ = mmu.pteAt ptr := ht

/-- The leaf of `va` has W and D set. -/
def Writable (mmu : MMU) (va : U32) : Prop :=
  ∃ ptr i, mmu.walk va 1 mmu.rootTable = .ok (ptr, i) ∧ allows .WRITE (mmu.pteAt ptr) = true ∧
    (mmu.pteAt ptr).getLsbD 7 = true

theorem Settled.write_of_read {mmu : MMU} {va : U32} {pa : U64} (h : mmu.Settled va .READ pa)
    (hw : mmu.Writable va) : mmu.Settled va .WRITE pa := by
  obtain ⟨ptr, i, hl, ht, rfl⟩ := h
  obtain ⟨hwalk, -, hm⟩ := leafOf_eq_ok.mp hl
  obtain ⟨ptr', i', hwalk', ha, hd⟩ := hw
  rw [hwalk] at hwalk'
  cases hwalk'
  refine ⟨ptr, i, leafOf_eq_ok.mpr ⟨hwalk, ha, hm⟩, ?_, rfl⟩
  have h128 : mmu.pteAt ptr ||| 128#32 = mmu.pteAt ptr := by
    have hb := (bit_eq_self_iff (mmu.pteAt ptr) (m := 128#32) (show 7 < 32 by decide) rfl).mpr hd
    calc mmu.pteAt ptr ||| 128#32 = mmu.pteAt ptr ||| (mmu.pteAt ptr &&& 128#32) := by rw [hb]
      _ = mmu.pteAt ptr := by
        apply BitVec.eq_of_getLsbD_eq
        intro i _
        rw [BitVec.getLsbD_or, BitVec.getLsbD_and]
        cases (mmu.pteAt ptr).getLsbD i <;> rfl
  have h64 : mmu.pteAt ptr ||| 64#32 = mmu.pteAt ptr := ht
  rw [touch, h64, h128]

end RiscvSim.MMU
