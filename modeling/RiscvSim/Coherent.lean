import RiscvSim.FullAddresses
import RiscvSim.Finishes

namespace RiscvSim

open Results

namespace MMU

/-- The TLB of this access has room and answers as the page table does. -/
structure Coherent (acc : AccessType) (m : MMU) : Prop where
  virt : m.isVirtualAddressing = true
  usable : ((tlbOf acc).get m).Usable
  settled : ∀ va pa, ((tlbOf acc).get m).Maps va pa → m.Settled va acc pa

/-- Another translation of `a` would write nothing. -/
def Quiet (acc : AccessType) (m : MMU) (a : U32) : Prop :=
  (∃ e, m.leafOf a acc = .error e) ∨ ∃ pa, m.Settled a acc pa

variable {acc : AccessType} {m : MMU} {c : LRUCache U32 PhysAddr} {a : U32}

theorem leafOf_error {e : Stop} (h : m.leafOf a acc = .error e) : e.IsException := by
  rw [leafOf] at h
  rcases bind_error h with hw | ⟨r, -, hr⟩
  · exact walk_error hw
  · split at hr
    · cases hr
      exact ⟨_, rfl⟩
    · split at hr
      · cases hr
        exact ⟨_, rfl⟩
      · cases hr

theorem Settled.set_tlb {pa : U64} : ((tlbOf acc).set c m).Settled a acc pa ↔ m.Settled a acc pa := by
  constructor
  · intro h
    have hback : TablesEvolve ((tlbOf acc).set c m) m := by
      refine ⟨?_, ?_, fun p _ ↦ .inl ?_⟩
      · exact (tlb_set_evolves acc c m).size.symm
      · exact (tlb_set_evolves acc c m).satp.symm
      · rw [pteAt, pteAt, readMem, readMem, tlb_set_pmem]
    exact h.evolve hback
  · exact (·.evolve (tlb_set_evolves acc c m))

theorem Quiet.mark_eq (h : m.Quiet acc a) : m.mark acc a = m := by
  rcases h with ⟨e, hl⟩ | ⟨pa, hs⟩
  · exact mark_of_error hl
  · exact mark_of_settled hs

theorem Quiet.evolve {m' : MMU} (h : m.Quiet acc a) (he : TablesEvolve m m') : m'.Quiet acc a := by
  rcases h with ⟨e, hl⟩ | ⟨pa, hs⟩
  · exact .inl ⟨e, by rw [he.leafOf, hl]⟩
  · exact .inr ⟨pa, hs.evolve he⟩

theorem quiet_mark (acc : AccessType) (m : MMU) (a : U32) : (m.mark acc a).Quiet acc a := by
  cases hl : m.leafOf a acc with
  | error e =>
    rw [mark_of_error hl]
    exact .inl ⟨e, hl⟩
  | ok r => exact .inr ⟨_, settled_mark (physOf_eq_ok.mpr ⟨r.1, r.2, hl, rfl⟩)⟩

/-- A coherent TLB gives the address of the page table. -/
theorem Coherent.physAddr (h : ((tlbOf acc).set c m).Coherent acc) (a : U32) :
    (∀ e, m.physOf acc a = .error e →
      ∃ m', (MMU.physAddr (tlbOf acc) a acc).run ((tlbOf acc).set c m) = .error e m') ∧
    ∀ pa, m.physOf acc a = .ok pa → ∃ c',
      (MMU.physAddr (tlbOf acc) a acc).run ((tlbOf acc).set c m) =
        .ok pa ((tlbOf acc).set c' (m.mark acc a)) ∧
      ((tlbOf acc).set c' (m.mark acc a)).Coherent acc := by
  have hv : m.isVirtualAddressing = true := by
    rw [← tlb_set_virt acc c m]
    exact h.virt
  have hc : c.Usable := by
    have hu := h.usable
    rwa [(tlbOf acc).get_set] at hu
  have hset : ∀ va pa, c.Maps va pa → m.Settled va acc pa := by
    intro va pa hm
    have hs := h.settled va pa
    rw [(tlbOf acc).get_set, Settled.set_tlb] at hs
    exact hs hm
  have hvm : ∀ c', ((tlbOf acc).set c' (m.mark acc a)).isVirtualAddressing = true := by
    intro c'
    rw [tlb_set_virt, isVirtualAddressing, (mark_evolves acc m a).satp]
    exact hv
  rcases physAddr_cases hv hc a with ⟨pa, c', hmap, hrun, hc', hsub⟩ | ⟨herr, hok⟩
  · have hs := hset a pa hmap
    rw [hs.physOf, mark_of_settled hs]
    refine ⟨?_, ?_⟩
    · intro e he
      cases he
    · intro pa' hpa
      cases hpa
      refine ⟨c', hrun, ?_, ?_, ?_⟩
      · rw [tlb_set_virt, hv]
      · rwa [(tlbOf acc).get_set]
      · intro va v hm
        rw [(tlbOf acc).get_set] at hm
        exact Settled.set_tlb.mpr (hset va v (hsub va v hm))
  · refine ⟨fun e he ↦ ?_, fun pa hpa ↦ ?_⟩
    · obtain ⟨c', hrun, -⟩ := herr e he
      exact ⟨_, hrun⟩
    obtain ⟨c', hrun, hc', hsub⟩ := hok pa hpa
    refine ⟨c', hrun, hvm c', ?_, ?_⟩
    · rwa [(tlbOf acc).get_set]
    · intro va v hm
      rw [(tlbOf acc).get_set] at hm
      rw [Settled.set_tlb]
      rcases hsub va v hm with ⟨rfl, rfl⟩ | hold
      · exact settled_mark hpa
      · exact (hset va v hold).evolve (mark_evolves acc m a)

/-- The access type of `load`. -/
def readType (instRead : Bool) : AccessType := if instRead then .EXEC else .READ

/-- What a read of `n` bytes at `a` finds. -/
def wordAt (acc : AccessType) (m : MMU) (n : ℕ) (a : U32) : Except Stop (BitVec (8 * n)) := do
  let pa ← m.physOf acc a
  let p ← m.getMemPtr n pa
  return (m.mark acc a).readMem n p

theorem wordAt_error {n : ℕ} {e : Stop} (h : m.wordAt acc n a = .error e) : e.IsException := by
  rw [wordAt] at h
  rcases bind_error h with hp | ⟨pa, -, hr⟩
  · exact leafOf_error (leafOf_of_physOf hp)
  · rcases bind_error hr with hp | ⟨p, -, hp⟩
    · exact getMemPtr_error hp
    · cases hp

theorem getMemPtr_eq_ok {n p : ℕ} {pa : U64} : m.getMemPtr n pa = .ok p ↔
    pa.toNat % 2 ^ 32 + n < m.pmem_size_ ∧ pa.toNat % 2 ^ 32 = p := by
  rw [getMemPtr_run]
  split
  · next h =>
    refine iff_of_false ?_ fun h' ↦ absurd h'.1 (Nat.not_lt.mpr h)
    intro hbad
    cases hbad
  · next h =>
    rw [Except.ok.injEq]
    exact (and_iff_right (Nat.lt_of_not_le h)).symm

theorem wordAt_eq_ok {n : ℕ} {v : BitVec (8 * n)} : m.wordAt acc n a = .ok v ↔ ∃ pa,
    m.physOf acc a = .ok pa ∧ pa.toNat % 2 ^ 32 + n < m.pmem_size_ ∧
      (m.mark acc a).readMem n (pa.toNat % 2 ^ 32) = v := by
  simp only [wordAt, bind_eq_ok, getMemPtr_eq_ok, pure, Except.pure, Except.ok.injEq]
  simp

theorem load_eq (n : ℕ) (va : U32) (r : Bool) : load n va r =
    (physAddr (tlbOf (readType r)) va (readType r) >>= fun pa ↦ do
      let ptr ← lift ((← get).getMemPtr n pa)
      return (← get).readMem n ptr : EStateM Stop MMU (BitVec (8 * n))) := by cases r <;> rfl

theorem getMemPtr_mark (acc : AccessType) (c : LRUCache U32 PhysAddr) (m : MMU) (a : U32) (n : ℕ)
    (pa : U64) : ((tlbOf acc).set c (m.mark acc a)).getMemPtr n pa = m.getMemPtr n pa := by
  rw [getMemPtr, getMemPtr, (tlb_set_evolves acc c _).size, (mark_evolves acc m a).size]

theorem Coherent.load {r : Bool} (h : ((tlbOf (readType r)).set c m).Coherent (readType r)) (n : ℕ)
    (a : U32) :
    (∀ e, m.wordAt (readType r) n a = .error e →
      ∃ m', (MMU.load n a r).run ((tlbOf (readType r)).set c m) = .error e m') ∧
    ∀ w, m.wordAt (readType r) n a = .ok w → ∃ c', (MMU.load n a r).run ((tlbOf (readType r)).set c m) =
        .ok w ((tlbOf (readType r)).set c' (m.mark (readType r) a)) ∧
      ((tlbOf (readType r)).set c' (m.mark (readType r) a)).Coherent (readType r) := by
  obtain ⟨herr, hok⟩ := h.physAddr a
  rw [load_eq, wordAt]
  generalize readType r = acc at *
  cases hp : m.physOf acc a with
  | error e =>
    obtain ⟨m', hrun⟩ := herr e hp
    rw [run_bind_of_error hrun]
    refine ⟨fun e' he ↦ ?_, fun w hw ↦ ?_⟩
    · cases he
      exact ⟨m', rfl⟩
    · cases hw
  | ok pa =>
    obtain ⟨c', hrun, hc'⟩ := hok pa hp
    rw [run_bind_of_ok hrun, run_bind_of_ok (EStateM.run_get _), getMemPtr_mark]
    simp only [bind, Except.bind]
    cases m.getMemPtr n pa with
    | error e =>
      refine ⟨fun e' he ↦ ?_, fun w hw ↦ ?_⟩
      · cases he
        exact ⟨_, rfl⟩
      · cases hw
    | ok p =>
      refine ⟨fun e' he ↦ ?_, fun w hw ↦ ?_⟩
      · cases he
      · cases hw
        refine ⟨c', ?_, hc'⟩
        change EStateM.Result.ok (((tlbOf acc).set c' (m.mark acc a)).readMem n p) _ = _
        rw [readMem, tlb_set_pmem]
        rfl

end MMU

end RiscvSim
