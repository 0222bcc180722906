import RiscvSim.WideAccess

namespace RiscvSim

open Results

namespace MMU

def ownPlace (m : MMU) (va : U32) (i : ℕ) : Except Stop ℕ := do
  let pa ← m.physOf .WRITE (va + BitVec.ofNat 32 i)
  m.getMemPtr 1 pa

/-- Where byte `i` of the wide store goes. -/
def nextPlace (m : MMU) (va : U32) (i : ℕ) : Except Stop ℕ := do
  let pa ← m.physOf .WRITE va
  let p ← m.getMemPtr (i + 1) pa
  return p + i

/-- A byte at `q` is none of the entries that map `a`. -/
def Apart (m : MMU) (a : U32) (q : ℕ) : Prop := ∀ w ∈ m.walkPtrs a 1 m.rootTable, q < w ∨ w + 4 ≤ q

/-- Neither way the store writes into the entries that map its bytes. -/
def EntriesApart (m : MMU) (n : ℕ) (va : U32) : Prop :=
  ∀ i < n, ∀ q, m.ownPlace va i = .ok q ∨ m.nextPlace va i = .ok q →
    ∀ j < n, m.Apart (va + BitVec.ofNat 32 j) q

/-- The bytes past the end of the page go, as the next page is mapped, where the wide store puts them,
or where the same bytes are anyway, and leave nothing to mark; or some byte faults either way. -/
def StoreSeamless {n : ℕ} (m : MMU) (va : U32) (data : BitVec (8 * n)) : Prop :=
  (∀ i < n, 4096 ≤ va.toNat % 4096 + i → (m.mark .WRITE va).Quiet .WRITE (va + BitVec.ofNat 32 i) ∧
    ∃ q p, m.ownPlace va i = .ok q ∧ m.nextPlace va i = .ok p ∧
      (q = p ∨ m.pmem_ q = Bytes.byte data i ∧ m.pmem_ p = Bytes.byte data i)) ∨
  (∃ i < n, ∃ e, m.ownPlace va i = .error e) ∧ ∃ i < n, ∃ e, m.nextPlace va i = .error e

section

variable {acc : AccessType} {m m' : MMU} {a : U32} {p q : ℕ}

theorem Apart.pteAt (h : m.Apart a q) (b : U8) {w : ℕ} (hw : w ∈ m.walkPtrs a 1 m.rootTable) :
    (m.writeMem (n := 1) q b).pteAt w = m.pteAt w := by
  have hapart := h w hw
  exact Bytes.read_write_of_disjoint _ _ (by omega)

theorem Apart.walk (h : m.Apart a q) (b : U8) :
    (m.writeMem (n := 1) q b).walk a 1 m.rootTable = m.walk a 1 m.rootTable ∧
      (m.writeMem (n := 1) q b).walkPtrs a 1 m.rootTable = m.walkPtrs a 1 m.rootTable := by
  have hsize : (m.writeMem (n := 1) q b).pmem_size_ = m.pmem_size_ := rfl
  exact walk_congr hsize fun _ hw ↦ .inl (h.pteAt b hw)

theorem Apart.leafOf (h : m.Apart a q) (b : U8) :
    (m.writeMem (n := 1) q b).leafOf a acc = m.leafOf a acc := by
  have hroot : (m.writeMem (n := 1) q b).rootTable = m.rootTable := rfl
  rw [MMU.leafOf, MMU.leafOf, hroot, (h.walk b).1]
  cases hw : m.walk a 1 m.rootTable with
  | error e => rfl
  | ok r =>
    change (if _ then _ else _) = (if _ then _ else _)
    rw [h.pteAt b (walk_mem hw)]

theorem Apart.physOf (h : m.Apart a q) (b : U8) :
    (m.writeMem (n := 1) q b).physOf acc a = m.physOf acc a := by
  rw [MMU.physOf, MMU.physOf, h.leafOf]
  cases hl : m.leafOf a acc with
  | error e => rfl
  | ok r =>
    change Except.ok (leafAddr a _ r.2) = Except.ok (leafAddr a _ r.2)
    rw [h.pteAt b (walk_mem (leafOf_eq_ok.mp hl).1)]

theorem Apart.mark (h : m.Apart a q) (b : U8) :
    (m.writeMem (n := 1) q b).mark acc a = (m.mark acc a).writeMem (n := 1) q b := by
  have hleaf : (m.writeMem (n := 1) q b).leafOf a acc = m.leafOf a acc := h.leafOf b
  cases hl : m.leafOf a acc with
  | error e => rw [mark_of_error (hleaf.trans hl), mark_of_error hl]
  | ok r =>
    have hmem := walk_mem (leafOf_eq_ok.mp hl).1
    have hapart : q + 1 ≤ r.1 ∨ r.1 + 4 ≤ q := h r.1 hmem
    rw [mark_of_ok (hleaf.trans hl), mark_of_ok hl, h.pteAt b hmem, writeMem, writeMem, writeMem, writeMem]
    exact congrArg (fun mem ↦ { m with pmem_ := mem }) (Bytes.write_comm _ _ _ hapart)

theorem Apart.evolve (h : m.Apart a q) (he : TablesEvolve m m') : m'.Apart a q := by
  have hptrs := (walk_congr he.size fun ptr hp ↦ he.words ptr ⟨a, hp⟩).2
  rw [Apart, he.rootTable, hptrs]
  exact h

theorem Apart.after (h : m.Apart a q) (hp : m.Apart a p) (b : U8) :
    (m.writeMem (n := 1) q b).Apart a p := by
  have hroot : (m.writeMem (n := 1) q b).rootTable = m.rootTable := rfl
  rw [Apart, hroot, (h.walk b).2]
  exact hp

theorem Apart.mark_pmem (h : m.Apart a q) : (m.mark acc a).pmem_ q = m.pmem_ q := by
  cases hl : m.leafOf a acc with
  | error e => rw [mark_of_error hl]
  | ok r =>
    have hapart := h r.1 (walk_mem (leafOf_eq_ok.mp hl).1)
    rw [mark_of_ok hl]
    exact if_neg (by omega)

end

/-- The memory with the first `k` bytes of a store at their places. -/
def laid {n : ℕ} (data : BitVec (8 * n)) (q : ℕ → ℕ) (m : MMU) : ℕ → MMU
  | 0 => m
  | k + 1 => (laid data q m k).writeMem (n := 1) (q k) (Bytes.byte data k)

section

variable {n : ℕ} {data : BitVec (8 * n)} {q : ℕ → ℕ} {acc : AccessType} {m : MMU} {a : U32} {k : ℕ}

variable (data q m) in
theorem laid_mode (k : ℕ) : (laid data q m k).pmem_size_ = m.pmem_size_ ∧ (laid data q m k).satp = m.satp := by
  induction k with
  | zero => exact ⟨rfl, rfl⟩
  | succ k ih => exact ih

theorem laid_of_ne {b : ℕ} (h : ∀ i < k, q i ≠ b) : (laid data q m k).pmem_ b = m.pmem_ b := by
  induction k with
  | zero => rfl
  | succ k ih =>
    have hk := h k (Nat.lt_succ_self k)
    have hrest := ih fun i hi ↦ h i (Nat.lt_succ_of_lt hi)
    rw [← hrest]
    exact if_neg (by omega)

theorem laid_at {i : ℕ} (hi : i < k) (hinj : ∀ j < k, q j = q i → j = i) :
    (laid data q m k).pmem_ (q i) = Bytes.byte data i := by
  induction k with
  | zero => exact absurd hi (Nat.not_lt_zero i)
  | succ k ih =>
    by_cases hk : q k = q i
    · have hlast := hinj k (Nat.lt_succ_self k) hk
      subst hlast
      refine (if_pos (by omega)).trans ?_
      rw [Nat.sub_self]
      simp [Bytes.byte]
    · have hlt : i < k := by
        refine Nat.lt_of_le_of_ne (Nat.le_of_lt_succ hi) fun h ↦ hk ?_
        rw [h]
      have hrest := ih hlt fun j hj ↦ hinj j (Nat.lt_succ_of_lt hj)
      rw [← hrest]
      exact if_neg (by omega)

theorem Apart.laid (hq : ∀ i < k, m.Apart a (q i)) {p : ℕ} (hp : m.Apart a p) :
    (laid data q m k).Apart a p := by
  induction k generalizing p with
  | zero => exact hp
  | succ k ih =>
    have hrest : ∀ i < k, m.Apart a (q i) := fun i hi ↦ hq i (Nat.lt_succ_of_lt hi)
    exact (ih hrest (hq k (Nat.lt_succ_self k))).after (ih hrest hp) _

theorem physOf_laid (hq : ∀ i < k, m.Apart a (q i)) :
    (laid data q m k).physOf acc a = m.physOf acc a := by
  induction k with
  | zero => rfl
  | succ k ih =>
    have hrest : ∀ i < k, m.Apart a (q i) := fun i hi ↦ hq i (Nat.lt_succ_of_lt hi)
    exact ((Apart.laid hrest (hq k (Nat.lt_succ_self k))).physOf _).trans (ih hrest)

theorem mark_laid (hq : ∀ i < k, m.Apart a (q i)) :
    (laid data q m k).mark acc a = laid data q (m.mark acc a) k := by
  induction k with
  | zero => rfl
  | succ k ih =>
    have hrest : ∀ i < k, m.Apart a (q i) := fun i hi ↦ hq i (Nat.lt_succ_of_lt hi)
    have hlast : (laid data q m k).Apart a (q k) := Apart.laid hrest (hq k (Nat.lt_succ_self k))
    rw [MMU.laid, hlast.mark, ih hrest]
    rfl

theorem Settled.laid {pa : U64} (h : m.Settled a acc pa) (hq : ∀ i < k, m.Apart a (q i)) :
    (laid data q m k).Settled a acc pa := by
  induction k with
  | zero => exact h
  | succ k ih =>
    have hrest : ∀ i < k, m.Apart a (q i) := fun i hi ↦ hq i (Nat.lt_succ_of_lt hi)
    have hlast : (MMU.laid data q m k).Apart a (q k) := Apart.laid hrest (hq k (Nat.lt_succ_self k))
    exact (ih hrest).of_entries rfl rfl fun w hw ↦ hlast.pteAt _ hw

end

/-- The data TLB answers for the bytes of the store as the page table does. -/
structure Answers (c : LRUCache U32 PhysAddr) (m : MMU) (n : ℕ) (va : U32) : Prop where
  usable : c.Usable
  settled : ∀ i < n, ∀ pa, c.Maps (va + BitVec.ofNat 32 i) pa → m.Settled (va + BitVec.ofNat 32 i) .WRITE pa

section

variable {n : ℕ} {data : BitVec (8 * n)} {q : ℕ → ℕ} {m : MMU} {c : LRUCache U32 PhysAddr} {va : U32}
  {i k : ℕ}

theorem ownPlace_eq_ok {p : ℕ} : m.ownPlace va i = .ok p ↔ ∃ pa,
    m.physOf .WRITE (va + BitVec.ofNat 32 i) = .ok pa ∧ pa.toNat % 2 ^ 32 + 1 < m.pmem_size_ ∧
      pa.toNat % 2 ^ 32 = p := by
  simp only [ownPlace, bind_eq_ok, getMemPtr_eq_ok]

theorem nextPlace_eq_ok {p : ℕ} : m.nextPlace va i = .ok p ↔ ∃ pa,
    m.physOf .WRITE va = .ok pa ∧ pa.toNat % 2 ^ 32 + (i + 1) < m.pmem_size_ ∧
      pa.toNat % 2 ^ 32 + i = p := by
  simp only [nextPlace, bind_eq_ok, getMemPtr_eq_ok, pure, Except.pure, Except.ok.injEq]
  simp

theorem Answers.evolve {m' : MMU} (h : Answers c m n va) (he : TablesEvolve m m') : Answers c m' n va :=
  ⟨h.usable, fun i hi pa hm ↦ (h.settled i hi pa hm).evolve he⟩

theorem Coherent.answers (h : ((tlbOf .WRITE).set c m).Coherent .WRITE) : Answers c m n va where
  usable := by
    have hu := h.usable
    rwa [(tlbOf .WRITE).get_set] at hu
  settled i _ pa hm := by
    have hs := h.settled (va + BitVec.ofNat 32 i) pa
    rw [(tlbOf .WRITE).get_set, Settled.set_tlb] at hs
    exact hs hm

variable (data) in
theorem Answers.physAddr (h : Answers c m n va) (hv : m.isVirtualAddressing = true) (hk : k < n)
    (hq : ∀ i < k, m.Apart (va + BitVec.ofNat 32 k) (q i)) :
    (∀ e, m.physOf .WRITE (va + BitVec.ofNat 32 k) = .error e → ∃ t,
      (MMU.physAddr (tlbOf .WRITE) (va + BitVec.ofNat 32 k) .WRITE).run
        ((tlbOf .WRITE).set c (laid data q m k)) = .error e t) ∧
    ∀ pa, m.physOf .WRITE (va + BitVec.ofNat 32 k) = .ok pa → ∃ c',
      (MMU.physAddr (tlbOf .WRITE) (va + BitVec.ofNat 32 k) .WRITE).run
        ((tlbOf .WRITE).set c (laid data q m k)) =
          .ok pa ((tlbOf .WRITE).set c' (laid data q (m.mark .WRITE (va + BitVec.ofNat 32 k)) k)) ∧
      Answers c' (m.mark .WRITE (va + BitVec.ofNat 32 k)) n va := by
  have hphys : (laid data q m k).physOf .WRITE (va + BitVec.ofNat 32 k) =
      m.physOf .WRITE (va + BitVec.ofNat 32 k) := physOf_laid hq
  have hmark : (laid data q m k).mark .WRITE (va + BitVec.ofNat 32 k) =
      laid data q (m.mark .WRITE (va + BitVec.ofNat 32 k)) k := mark_laid hq
  have hvl : (laid data q m k).isVirtualAddressing = true := by
    rw [isVirtualAddressing, (laid_mode data q m k).2]
    exact hv
  rcases @physAddr_cases .WRITE _ c hvl h.usable (va + BitVec.ofNat 32 k) with
    ⟨pa, c', hmap, hrun, hc', hsub⟩ | ⟨herr, hok⟩
  · have hs := h.settled k hk pa hmap
    have hback : ∀ i < n, ∀ pa, c'.Maps (va + BitVec.ofNat 32 i) pa →
        m.Settled (va + BitVec.ofNat 32 i) .WRITE pa := fun i hi v hm ↦ h.settled i hi v (hsub _ v hm)
    rw [hs.physOf, mark_of_settled hs]
    refine ⟨fun e he ↦ ?_, fun pa' hpa ↦ ?_⟩
    · cases he
    · cases hpa
      exact ⟨c', hrun, hc', hback⟩
  · rw [hphys] at herr hok
    refine ⟨fun e he ↦ ?_, fun pa hpa ↦ ?_⟩
    · obtain ⟨c', hrun, -⟩ := herr e he
      exact ⟨_, hrun⟩
    · obtain ⟨c', hrun, hc', hsub⟩ := hok pa hpa
      rw [hmark] at hrun
      have hkept := h.evolve (mark_evolves .WRITE m (va + BitVec.ofNat 32 k))
      refine ⟨c', hrun, hc', fun i hi v hm ↦ ?_⟩
      rcases hsub _ v hm with ⟨ha, rfl⟩ | hold
      · rw [ha]
        exact settled_mark hpa
      · exact hkept.settled i hi v hold

theorem satp_marked (k : ℕ) : (m.marked .WRITE va k).satp = m.satp := by
  induction k with
  | zero => rfl
  | succ k ih => rw [marked, (mark_evolves .WRITE _ _).satp, ih]

theorem virt_marked (hv : m.isVirtualAddressing = true) (k : ℕ) :
    (m.marked .WRITE va k).isVirtualAddressing = true := by
  rw [isVirtualAddressing, satp_marked]
  exact hv

variable (va) in
theorem Apart.marked {a : U32} {p : ℕ} (h : m.Apart a p) (k : ℕ) : (m.marked .WRITE va k).Apart a p := by
  induction k with
  | zero => exact h
  | succ k ih => exact ih.evolve (mark_evolves .WRITE _ _)

variable (data) in
theorem Answers.store (h : Answers c (m.marked .WRITE va k) n va) (hv : m.isVirtualAddressing = true)
    (hk : k < n) (hq : ∀ i < k, m.Apart (va + BitVec.ofNat 32 k) (q i)) :
    ((∃ e, m.ownPlace va k = .error e) →
      Faults ((store (n := 1) (va + BitVec.ofNat 32 k) (Bytes.byte data k)).run
        ((tlbOf .WRITE).set c (laid data q (m.marked .WRITE va k) k)))) ∧
    (m.ownPlace va k = .ok (q k) → ∃ c',
      (store (n := 1) (va + BitVec.ofNat 32 k) (Bytes.byte data k)).run
        ((tlbOf .WRITE).set c (laid data q (m.marked .WRITE va k) k)) =
          .ok () ((tlbOf .WRITE).set c' (laid data q (m.marked .WRITE va (k + 1)) (k + 1))) ∧
      Answers c' (m.marked .WRITE va (k + 1)) n va) := by
  obtain ⟨herr, hok⟩ := h.physAddr data (virt_marked hv k) hk fun i hi ↦ (hq i hi).marked va k
  rw [physOf_marked] at herr hok
  have hsize : ∀ j, (laid data q (m.marked .WRITE va j) k).pmem_size_ = m.pmem_size_ := fun j ↦
    (laid_mode data q _ k).1.trans (size_marked .WRITE m va j)
  cases hp : m.physOf .WRITE (va + BitVec.ofNat 32 k) with
  | error e =>
    obtain ⟨t, hrun⟩ := herr e hp
    refine ⟨fun _ ↦ store_of_physAddr_error hrun (leafOf_error (leafOf_of_physOf hp)), fun hplace ↦ ?_⟩
    obtain ⟨pa, hpa, -⟩ := ownPlace_eq_ok.mp hplace
    rw [hp] at hpa
    cases hpa
  | ok pa =>
    obtain ⟨c', hrun, hc'⟩ := hok pa hp
    obtain ⟨hout, hin⟩ := store_of_physAddr (n := 1) (Bytes.byte data k) hrun
    have hlast := hsize (k + 1)
    rw [marked] at hlast
    rw [hlast] at hout hin
    refine ⟨fun hex ↦ hout ?_, fun hplace ↦ ?_⟩
    · obtain ⟨e, he⟩ := hex
      by_contra hlt
      rw [ownPlace_eq_ok.mpr ⟨pa, hp, Nat.lt_of_not_le hlt, rfl⟩] at he
      cases he
    · obtain ⟨pa', hpa, hlt, hqk⟩ := ownPlace_eq_ok.mp hplace
      rw [hp] at hpa
      cases hpa
      refine ⟨c', ?_, hc'⟩
      rw [hin hlt, hqk]
      rfl

variable (data) in
theorem storeBytes_laid (h : Answers c m n va) (hv : m.isVirtualAddressing = true)
    (happart : ∀ i < k, ∀ j < n, m.Apart (va + BitVec.ofNat 32 j) (q i)) (hk : k ≤ n)
    (hplace : ∀ i < k, m.ownPlace va i = .ok (q i)) : ∃ c',
      (storeBytes va data k).run ((tlbOf .WRITE).set c m) =
        .ok () ((tlbOf .WRITE).set c' (laid data q (m.marked .WRITE va k) k)) ∧
      Answers c' (m.marked .WRITE va k) n va := by
  induction k with
  | zero => exact ⟨c, rfl, h⟩
  | succ k ih =>
    obtain ⟨c₁, hrun, hc₁⟩ := ih (fun i hi ↦ happart i (Nat.lt_succ_of_lt hi)) (Nat.le_of_succ_le hk)
      fun i hi ↦ hplace i (Nat.lt_succ_of_lt hi)
    obtain ⟨c', hlast, hc'⟩ := (hc₁.store data hv hk
      fun i hi ↦ happart i (Nat.lt_succ_of_lt hi) k hk).2 (hplace k (Nat.lt_succ_self k))
    refine ⟨c', ?_, hc'⟩
    rw [storeBytes, run_bind_of_ok hrun, hlast]

theorem storeBytes_faults_of_le {j : ℕ} (hle : k ≤ j) (h : Faults ((storeBytes va data k).run m)) :
    Faults ((storeBytes va data j).run m) := by
  induction hle with
  | refl => exact h
  | step _ ih => exact storeBytes_faults ih

variable (data) in
theorem storeBytes_error (h : Answers c m n va) (hv : m.isVirtualAddressing = true)
    (hapart : m.EntriesApart n va) (hex : ∃ i < n, ∃ e, m.ownPlace va i = .error e) :
    Faults ((storeBytes va data n).run ((tlbOf .WRITE).set c m)) := by
  classical
  -- the first of them
  obtain ⟨hk, he⟩ := Nat.find_spec hex
  have hmin := fun i (hi : i < Nat.find hex) ↦ Nat.find_min hex hi
  generalize Nat.find hex = k at hk he hmin
  have hplaces : ∀ i < k, ∃ p, m.ownPlace va i = .ok p := by
    intro i hi
    cases hp : m.ownPlace va i with
    | error e => exact absurd ⟨hi.trans hk, e, hp⟩ (hmin i hi)
    | ok p => exact ⟨p, rfl⟩
  choose! q hq using hplaces
  have happart : ∀ i < k, ∀ j < n, m.Apart (va + BitVec.ofNat 32 j) (q i) :=
    fun i hi ↦ hapart i (hi.trans hk) _ (.inl (hq i hi))
  obtain ⟨c', hrun, hc'⟩ := storeBytes_laid data h hv happart hk.le hq
  obtain ⟨e', t, hstop, hexc⟩ := (hc'.store data hv hk fun i hi ↦ happart i hi k hk).1 he
  refine storeBytes_faults_of_le (Nat.succ_le_of_lt hk) ⟨e', t, ?_, hexc⟩
  rw [storeBytes, run_bind_of_ok hrun, hstop]

theorem SamePage.ownPlace_iff (h : SamePage va i) (p : ℕ) :
    m.ownPlace va i = .ok p ↔ m.nextPlace va i = .ok p := by
  rw [ownPlace_eq_ok, nextPlace_eq_ok]
  cases hp : m.physOf .WRITE va with
  | error e =>
    have hp' : m.physOf .WRITE (va + BitVec.ofNat 32 i) = .error e := by
      rw [MMU.physOf, h.leafOf, leafOf_of_physOf hp]
      rfl
    rw [hp']
    simp
  | ok pa =>
    obtain ⟨pa', hp', hadd⟩ := h.physOf hp
    rw [hp']
    simp only [Except.ok.injEq, exists_eq_left', hadd, Nat.add_assoc]

theorem physOf_mod {pa : U64} {b : U32} (h : m.physOf .WRITE b = .ok pa) :
    pa.toNat % 2 ^ 32 % 4096 = b.toNat % 4096 := by
  obtain ⟨ptr, j, -, rfl⟩ := physOf_eq_ok.mp h
  have hmod := leafAddr_mod b (m.pteAt ptr) j
  omega

theorem ownPlace_mod {p : ℕ} (h : m.ownPlace va i = .ok p) : p % 4096 = (va.toNat + i) % 4096 := by
  obtain ⟨pa, hpa, -, rfl⟩ := ownPlace_eq_ok.mp h
  rw [physOf_mod hpa, BitVec.toNat_add, BitVec.toNat_ofNat]
  omega

theorem nextPlace_mod {p : ℕ} (h : m.nextPlace va i = .ok p) : p % 4096 = (va.toNat + i) % 4096 := by
  obtain ⟨pa, hpa, -, rfl⟩ := nextPlace_eq_ok.mp h
  have hmod := physOf_mod hpa
  omega

theorem StoreSeamless.ok_iff (h : StoreSeamless m va data) :
    (∀ i < n, ∃ p, m.ownPlace va i = .ok p) ↔ ∀ i < n, ∃ p, m.nextPlace va i = .ok p := by
  rcases h with hpast | ⟨⟨i, hi, e, he⟩, j, hj, e', he'⟩
  · refine forall₂_congr fun i hi ↦ ?_
    by_cases hpage : SamePage va i
    · exact exists_congr fun p ↦ hpage.ownPlace_iff p
    · obtain ⟨-, q, p, hq, hp, -⟩ := hpast i hi (Nat.le_of_not_lt hpage)
      exact iff_of_true ⟨q, hq⟩ ⟨p, hp⟩
  · refine iff_of_false (fun hall ↦ ?_) fun hall ↦ ?_
    · obtain ⟨p, hp⟩ := hall i hi
      rw [he] at hp
      cases hp
    · obtain ⟨p, hp⟩ := hall j hj
      rw [he'] at hp
      cases hp

theorem Apart.marked_pmem {p : ℕ} (h : ∀ j < k, m.Apart (va + BitVec.ofNat 32 j) p) :
    (m.marked .WRITE va k).pmem_ p = m.pmem_ p := by
  induction k with
  | zero => rfl
  | succ k ih =>
    have hlast := (h k (Nat.lt_succ_self k)).marked va k
    rw [MMU.marked, hlast.mark_pmem]
    exact ih fun j hj ↦ h j (Nat.lt_succ_of_lt hj)

theorem marked_quiet (hi : i < k) : (m.marked .WRITE va k).Quiet .WRITE (va + BitVec.ofNat 32 i) := by
  induction k with
  | zero => exact absurd hi (Nat.not_lt_zero i)
  | succ k ih =>
    rw [marked]
    rcases Nat.lt_or_eq_of_le (Nat.le_of_lt_succ hi) with hlt | rfl
    · exact (ih hlt).evolve (mark_evolves .WRITE _ _)
    · exact quiet_mark .WRITE _ _

/-- Where the later bytes have nothing to mark, the first has marked all. -/
theorem marked_of_quiet (hk : 0 < k) (h : ∀ i < k, (m.mark .WRITE va).Quiet .WRITE (va + BitVec.ofNat 32 i)) :
    m.marked .WRITE va k = m.mark .WRITE va := by
  induction k with
  | zero => exact absurd hk (Nat.lt_irrefl 0)
  | succ k ih =>
    cases k with
    | zero => rw [marked, marked, BitVec.add_zero]
    | succ k =>
      rw [marked, ih (Nat.succ_pos k) fun i hi ↦ h i (Nat.lt_succ_of_lt hi)]
      exact (h (k + 1) (Nat.lt_succ_self _)).mark_eq

theorem unmarked_of_apart {b : ℕ} (hn : 0 < n) (hb : ∀ j < n, m.Apart (va + BitVec.ofNat 32 j) b) :
    (m.mark .WRITE va).pmem_ b = m.pmem_ b ∧ (m.marked .WRITE va n).pmem_ b = m.pmem_ b := by
  have hfirst := hb 0 hn
  rw [BitVec.add_zero] at hfirst
  exact ⟨hfirst.mark_pmem, Apart.marked_pmem hb⟩

theorem wideStore_at {p : ℕ} (hi : i < n) :
    ((m.mark .WRITE va).writeMem p data).pmem_ (p + i) = Bytes.byte data i := by
  refine (if_pos (by omega)).trans ?_
  rw [Nat.add_sub_cancel_left]

/-- Both stores make the same memory. -/
def SameMemory (m : MMU) {n : ℕ} (va : U32) (data : BitVec (8 * n)) (q : ℕ → ℕ) (p : ℕ) : Prop :=
  ((m.mark .WRITE va).writeMem p data).pmem_ = (laid data q (m.marked .WRITE va n) n).pmem_

/-- Each byte of the store has its own place `q i`, and the wide store puts it at `p + i`. -/
structure Places (m : MMU) (n : ℕ) (va : U32) (q : ℕ → ℕ) (p : ℕ) : Prop where
  own : ∀ i < n, m.ownPlace va i = .ok (q i)
  next : ∀ i < n, m.nextPlace va i = .ok (p + i)
  apart : m.EntriesApart n va
  page : n ≤ 4096

namespace Places

variable {p : ℕ} (h : Places m n va q p)

include h

theorem own_inj {j : ℕ} (hi : i < n) (hj : j < n) (heq : q i = q j) : i = j := by
  have hi' := ownPlace_mod (h.own i hi)
  have hj' := ownPlace_mod (h.own j hj)
  have hn := h.page
  rw [heq] at hi'
  omega

theorem next_inj {j : ℕ} (hi : i < n) (hj : j < n) (heq : q i = p + j) : i = j := by
  have hi' := ownPlace_mod (h.own i hi)
  have hj' := nextPlace_mod (h.next j hj)
  have hn := h.page
  rw [heq] at hi'
  omega

theorem own_apart (hi : i < n) : ∀ j < n, m.Apart (va + BitVec.ofNat 32 j) (q i) :=
  h.apart i hi _ (.inl (h.own i hi))

theorem next_apart (hi : i < n) : ∀ j < n, m.Apart (va + BitVec.ofNat 32 j) (p + i) :=
  h.apart i hi _ (.inr (h.next i hi))

theorem wide_own (hi : i < n) (hne : q i ≠ p + i) :
    ((m.mark .WRITE va).writeMem p data).pmem_ (q i) = m.pmem_ (q i) := by
  have hout : ¬ (p ≤ q i ∧ q i < p + n) := by
    intro hin
    have hj : q i - p < n := by omega
    have heq := h.next_inj hi hj (by omega)
    omega
  exact (if_neg hout).trans (unmarked_of_apart (Nat.zero_lt_of_lt hi) (h.own_apart hi)).1

theorem laid_own (hi : i < n) : (laid data q (m.marked .WRITE va n) n).pmem_ (q i) = Bytes.byte data i :=
  laid_at hi fun _ hj heq ↦ h.own_inj hj hi heq

theorem laid_next (hi : i < n) (hne : q i ≠ p + i) :
    (laid data q (m.marked .WRITE va n) n).pmem_ (p + i) = m.pmem_ (p + i) := by
  have hother : ∀ j < n, q j ≠ p + i := by
    intro j hj heq
    obtain rfl := h.next_inj hj hi heq
    exact hne heq
  exact (laid_of_ne hother).trans (unmarked_of_apart (Nat.zero_lt_of_lt hi) (h.next_apart hi)).2

theorem marks_of_sameMemory (hn : 0 < n) (hs : SameMemory m va data q p) :
    (m.marked .WRITE va n).pmem_ = (m.mark .WRITE va).pmem_ := by
  funext b
  by_cases hown : ∃ i < n, q i = b
  · obtain ⟨i, hi, rfl⟩ := hown
    obtain ⟨hfirst, hall⟩ := unmarked_of_apart hn (h.own_apart hi)
    exact hall.trans hfirst.symm
  · by_cases hnext : p ≤ b ∧ b < p + n
    · obtain ⟨i, rfl⟩ := Nat.exists_eq_add_of_le hnext.1
      obtain ⟨hfirst, hall⟩ := unmarked_of_apart hn (h.next_apart (show i < n by omega))
      exact hall.trans hfirst.symm
    · have hb := congrFun hs b
      rw [laid_of_ne fun i hi heq ↦ hown ⟨i, hi, heq⟩] at hb
      exact hb.symm.trans (if_neg hnext)

theorem sameMemory_iff (hn : 0 < n) : SameMemory m va data q p ↔ StoreSeamless m va data := by
  constructor
  · intro hs
    have hmarks := h.marks_of_sameMemory hn hs
    have hback : TablesEvolve (m.marked .WRITE va n) (m.mark .WRITE va) := by
      refine ⟨?_, ?_, fun w _ ↦ .inl ?_⟩
      · rw [size_marked, (mark_evolves .WRITE m va).size]
      · rw [satp_marked, (mark_evolves .WRITE m va).satp]
      · rw [pteAt, pteAt, readMem, readMem, hmarks]
    refine .inl fun i hi _ ↦ ⟨(marked_quiet hi).evolve hback, q i, p + i, h.own i hi, h.next i hi, ?_⟩
    by_cases hne : q i = p + i
    · exact .inl hne
    · have hown := congrFun hs (q i)
      have hnext := congrFun hs (p + i)
      rw [h.wide_own hi hne, h.laid_own hi] at hown
      rw [wideStore_at hi, h.laid_next hi hne] at hnext
      exact .inr ⟨hown, hnext.symm⟩
  · rintro (hpast | ⟨⟨i, hi, e, he⟩, -⟩)
    · have hall : ∀ i < n, (m.mark .WRITE va).Quiet .WRITE (va + BitVec.ofNat 32 i) ∧
          (q i = p + i ∨ m.pmem_ (q i) = Bytes.byte data i ∧ m.pmem_ (p + i) = Bytes.byte data i) := by
        intro i hi
        by_cases hpage : SamePage va i
        · have hnext := (hpage.ownPlace_iff _).mp (h.own i hi)
          rw [h.next i hi] at hnext
          refine ⟨?_, .inl (Except.ok.inj hnext).symm⟩
          rw [← hpage.mark]
          exact quiet_mark .WRITE m _
        · obtain ⟨hquiet, q', p', hq, hp, hplace⟩ := hpast i hi (Nat.le_of_not_lt hpage)
          rw [h.own i hi] at hq
          rw [h.next i hi] at hp
          cases hq
          cases hp
          exact ⟨hquiet, hplace⟩
      have hmarks := marked_of_quiet hn fun i hi ↦ (hall i hi).1
      funext b
      by_cases hown : ∃ i < n, q i = b
      · obtain ⟨i, hi, rfl⟩ := hown
        rw [h.laid_own hi]
        by_cases hne : q i = p + i
        · rw [hne]
          exact wideStore_at hi
        · rw [h.wide_own hi hne]
          exact ((hall i hi).2.resolve_left hne).1
      · have hlaid : (laid data q (m.marked .WRITE va n) n).pmem_ b = (m.mark .WRITE va).pmem_ b := by
          rw [laid_of_ne fun i hi heq ↦ hown ⟨i, hi, heq⟩, hmarks]
        rw [hlaid]
        by_cases hnext : p ≤ b ∧ b < p + n
        · obtain ⟨i, rfl⟩ := Nat.exists_eq_add_of_le hnext.1
          have hi : i < n := by omega
          have hne : q i ≠ p + i := fun heq ↦ hown ⟨i, hi, heq⟩
          rw [wideStore_at hi, (unmarked_of_apart hn (h.next_apart hi)).1]
          exact ((hall i hi).2.resolve_left hne).2.symm
        · exact if_neg hnext
    · rw [h.own i hi] at he
      cases he

end Places

variable (va) in
theorem store_faults_iff (h : m.Coherent .WRITE) (hn : 0 < n) (data : BitVec (8 * n)) :
    ((∃ i < n, ∃ e, m.nextPlace va i = .error e) → Faults ((store va data).run m)) ∧
    ((∀ i < n, ∃ p, m.nextPlace va i = .ok p) → ∃ p c, (∀ i < n, m.nextPlace va i = .ok (p + i)) ∧
      (store va data).run m = .ok () ((tlbOf .WRITE).set c ((m.mark .WRITE va).writeMem p data))) := by
  have hm : (tlbOf .WRITE).set ((tlbOf .WRITE).get m) m = m := (tlbOf .WRITE).set_get m
  rw [← hm] at h
  obtain ⟨herr, hok⟩ := h.physAddr va
  rw [hm] at herr hok
  cases hp : m.physOf .WRITE va with
  | error e =>
    obtain ⟨t, hrun⟩ := herr e hp
    refine ⟨fun _ ↦ store_of_physAddr_error hrun (leafOf_error (leafOf_of_physOf hp)), fun hall ↦ ?_⟩
    obtain ⟨p, hp'⟩ := hall 0 hn
    obtain ⟨pa, hpa, -⟩ := nextPlace_eq_ok.mp hp'
    rw [hp] at hpa
    cases hpa
  | ok pa =>
    obtain ⟨c', hrun, -⟩ := hok pa hp
    obtain ⟨hout, hin⟩ := store_of_physAddr data hrun
    rw [(mark_evolves .WRITE m va).size] at hout hin
    refine ⟨fun hex ↦ hout ?_, fun hall ↦ ?_⟩
    · obtain ⟨i, hi, e, he⟩ := hex
      by_contra hlt
      rw [nextPlace_eq_ok.mpr ⟨pa, hp, by omega, rfl⟩] at he
      cases he
    · obtain ⟨p, hlast⟩ := hall (n - 1) (Nat.sub_lt hn Nat.one_pos)
      obtain ⟨pa', hpa, hlt, -⟩ := nextPlace_eq_ok.mp hlast
      rw [hp] at hpa
      cases hpa
      refine ⟨pa.toNat % 2 ^ 32, c', fun i hi ↦ ?_, hin (by omega)⟩
      exact nextPlace_eq_ok.mpr ⟨pa, hp, by omega, rfl⟩

/-- A wide store that leaves its entries alone is its bytes exactly when nothing shows at the seam. -/
theorem store_isBytes_iff (h : m.Coherent .WRITE) (hn : 0 < n) (hpage : n ≤ 4096)
    (hapart : m.EntriesApart n va) (data : BitVec (8 * n)) :
    StoreIsBytes m va data ↔ StoreSeamless m va data := by
  have hm : (tlbOf .WRITE).set ((tlbOf .WRITE).get m) m = m := (tlbOf .WRITE).set_get m
  have hanswers : Answers ((tlbOf .WRITE).get m) m n va := by
    rw [← hm] at h
    exact h.answers
  obtain ⟨hwide, hdone⟩ := store_faults_iff va h hn data
  have hbytes := storeBytes_error data hanswers h.virt hapart
  have hlaid := fun (q : ℕ → ℕ) (hq : ∀ i < n, m.ownPlace va i = .ok (q i)) ↦
    storeBytes_laid data hanswers h.virt (fun i hi ↦ hapart i hi (q i) (.inl (hq i hi))) le_rfl hq
  rw [hm] at hbytes hlaid
  by_cases hown : ∀ i < n, ∃ p, m.ownPlace va i = .ok p
  · have hown' := hown
    choose! q hq using hown
    obtain ⟨c₂, hrun₂, -⟩ := hlaid q hq
    by_cases hnext : ∀ i < n, ∃ p, m.nextPlace va i = .ok p
    · obtain ⟨p, c₁, hp, hrun₁⟩ := hdone hnext
      have hplaces : Places m n va q p := ⟨hq, hp, hapart, hpage⟩
      rw [← hplaces.sameMemory_iff hn, StoreIsBytes, hrun₁, hrun₂]
      constructor
      · rintro (⟨m₁, m₂, h₁, h₂, hsame⟩ | ⟨⟨e, t, he, -⟩, -⟩)
        · cases h₁
          cases h₂
          rw [tlb_set_pmem, tlb_set_pmem] at hsame
          exact hsame
        · cases he
      · intro hsame
        refine .inl ⟨_, _, rfl, rfl, ?_⟩
        rw [tlb_set_pmem, tlb_set_pmem]
        exact hsame
    · refine iff_of_false ?_ fun hs ↦ hnext (hs.ok_iff.mp hown')
      obtain ⟨e, t, hrun₁, -⟩ := hwide (exists_error hnext)
      rw [StoreIsBytes, hrun₁, hrun₂]
      rintro (⟨m₁, m₂, h₁, -⟩ | ⟨-, e, t, he, -⟩)
      · cases h₁
      · cases he
  · have herror := exists_error hown
    have hstop := hbytes herror
    by_cases hnext : ∀ i < n, ∃ p, m.nextPlace va i = .ok p
    · refine iff_of_false ?_ fun hs ↦ hown (hs.ok_iff.mpr hnext)
      obtain ⟨p, c₁, -, hrun₁⟩ := hdone hnext
      obtain ⟨e, t, hrun₂, -⟩ := hstop
      rw [StoreIsBytes, hrun₁, hrun₂]
      rintro (⟨m₁, m₂, -, h₂, -⟩ | ⟨⟨e, t, he, -⟩, -⟩)
      · cases h₂
      · cases he
    · have hnone := exists_error hnext
      exact iff_of_true (.inr ⟨hwide hnone, hstop⟩) (.inr ⟨herror, hnone⟩)

end

/-- A table in frame 2 that maps the first page to frame 4 and the second to frame 8. -/
def seam : MMU where
  instTLB_ := .new 4
  dataTLB_ := .new 4
  pmem_size_ := 0x10000
  pmem_ :=
    let mem := Bytes.write (n := 4) (fun _ ↦ 0) 0x1000 0x801#32
    let mem := Bytes.write (n := 4) mem 0x2000 0x100f#32
    let mem := Bytes.write (n := 4) mem 0x2004 0x200f#32
    Bytes.write (n := 1) mem 0x8000 0x55#8
  satp := 0x80000001#32

theorem seam_coherent (acc : AccessType) : seam.Coherent acc where
  virt := by decide
  usable := by
    have hnew : (tlbOf acc).get seam = .new 4 := by cases acc <;> rfl
    rw [hnew]
    exact LRUCache.new_usable (by decide)
  settled va pa hm := by
    have hnew : (tlbOf acc).get seam = .new 4 := by cases acc <;> rfl
    rw [hnew] at hm
    obtain ⟨e, he, -⟩ := hm
    cases he

/-- The same table with the first page in the last frame. -/
def edge : MMU :=
  { seam with pmem_size_ := 0xf000, pmem_ := Bytes.write (n := 4) seam.pmem_ 0x2000 0x380f#32 }

/-- All entries lie below 0x3000, and all places above. -/
theorem apart_of_tables {m : MMU} {va : U32}
    (hwords : ∀ j < 4, ∀ w ∈ m.walkPtrs (va + BitVec.ofNat 32 j) 1 m.rootTable, w + 4 ≤ 0x3000)
    (hown : ∀ i < 4, (m.ownPlace va i).toOption.all (0x3000 ≤ ·) = true)
    (hnext : ∀ i < 4, (m.nextPlace va i).toOption.all (0x3000 ≤ ·) = true) : m.EntriesApart 4 va := by
  intro i hi q hq j hj w hw
  have hplace : 0x3000 ≤ q := by
    rcases hq with hq | hq
    · have hall := hown i hi
      rw [hq] at hall
      exact of_decide_eq_true hall
    · have hall := hnext i hi
      rw [hq] at hall
      exact of_decide_eq_true hall
  exact .inr ((hwords j hj w hw).trans hplace)

theorem edge_coherent : edge.Coherent .WRITE where
  virt := by decide
  usable := LRUCache.new_usable (by decide)
  settled va pa hm := by
    obtain ⟨e, he, -⟩ := hm
    cases he

end MMU

end RiscvSim
