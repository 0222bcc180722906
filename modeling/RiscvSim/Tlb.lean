import RiscvSim.TlbAddresses
import RiscvSim.Library.Simulation

namespace RiscvSim

open Results

/-- One access of the processor; the data is `n` bytes wide. -/
inductive Access where
  | fetch (n : ℕ) (va : U32)
  | load (n : ℕ) (va : U32)
  | store (n : ℕ) (va : U32) (data : BitVec (8 * n))

namespace Access

def va : Access → U32
  | fetch _ va | load _ va | store _ va _ => va

def size : Access → ℕ
  | fetch n _ | load n _ | store n _ _ => n

def type : Access → AccessType
  | fetch .. => .EXEC
  | load .. => .READ
  | store .. => .WRITE

end Access

namespace MMU

def finish (a : Access) (pa : U64) : EStateM Stop MMU ℕ := do
  let ptr ← lift ((← get).getMemPtr a.size pa)
  match a with
  | .fetch n _ | .load n _ => return ((← get).readMem n ptr).toNat
  | .store _ _ data =>
    modify fun mmu ↦ mmu.writeMem ptr data
    return 0

def access (a : Access) : EStateM Stop MMU (U64 × ℕ) := do
  let pa ← physAddr (tlbOf a.type) a.va a.type
  let v ← finish a pa
  return (pa, v)

def accessFresh (a : Access) : EStateM Stop MMU (U64 × ℕ) := do
  let pa ← translate a.va a.type
  let v ← finish a pa
  return (pa, v)

theorem load_run (n : ℕ) (va : U32) (instRead : Bool) (mmu : MMU) : (load n va instRead).run mmu =
    match (access (if instRead then .fetch n va else .load n va)).run mmu with
      | .ok r s => .ok (BitVec.ofNat _ r.2) s
      | .error e s => .error e s := by
  have hrest : ∀ (x : EStateM Stop MMU U64) (a : Access), a = .fetch n va ∨ a = .load n va →
      (x >>= fun pa ↦ (do
        let ptr ← lift ((← get).getMemPtr n pa)
        return (← get).readMem n ptr : EStateM Stop MMU (BitVec (8 * n)))).run mmu =
        match (x >>= fun pa ↦ finish a pa >>= fun v ↦ pure (pa, v)).run mmu with
          | .ok r s => .ok (BitVec.ofNat _ r.2) s
          | .error e s => .error e s := by
    intro x a ha
    cases hx : x.run mmu with
    | error e s => rw [run_bind_of_error hx, run_bind_of_error hx]
    | ok pa s =>
      have hf : finish a pa = (do
          let ptr ← lift ((← get).getMemPtr n pa)
          return ((← get).readMem n ptr).toNat) := by
        rcases ha with rfl | rfl <;> rfl
      rw [run_bind_of_ok hx, run_bind_of_ok hx, hf, bind_assoc, run_bind_of_ok (EStateM.run_get s),
        run_bind_of_ok (EStateM.run_get s), bind_assoc]
      cases hp : s.getMemPtr n pa with
      | error e => rfl
      | ok ptr =>
        rw [run_bind_of_ok (run_lift_ok ptr s), run_bind_of_ok (run_lift_ok ptr s)]
        change EStateM.Result.ok (s.readMem n ptr) s = .ok (BitVec.ofNat _ (s.readMem n ptr).toNat) s
        rw [BitVec.ofNat_toNat, BitVec.setWidth_eq]
  cases instRead with
  | true => exact hrest _ _ (.inl rfl)
  | false => exact hrest _ _ (.inr rfl)

theorem store_run {n : ℕ} (va : U32) (data : BitVec (8 * n)) (mmu : MMU) :
    (store va data).run mmu = match (access (.store n va data)).run mmu with
      | .ok _ s => .ok () s
      | .error e s => .error e s := by
  change (physAddr dataTLB va .WRITE >>= fun pa ↦ _).run mmu =
    match (physAddr dataTLB va .WRITE >>= fun pa ↦
      finish (.store n va data) pa >>= fun v ↦ pure (pa, v)).run mmu with
    | .ok _ s => EStateM.Result.ok () s
    | .error e s => .error e s
  cases hx : (physAddr dataTLB va .WRITE).run mmu with
  | error e s => rw [run_bind_of_error hx, run_bind_of_error hx]
  | ok pa s =>
    rw [run_bind_of_ok hx, run_bind_of_ok hx, finish, bind_assoc,
      run_bind_of_ok (EStateM.run_get s), run_bind_of_ok (EStateM.run_get s), bind_assoc]
    dsimp only [Access.size]
    cases s.getMemPtr n pa with
    | error e => rfl
    | ok ptr => rfl

/-- The access type under which the entries of a TLB are settled. -/
def entryType : AccessType → AccessType
  | .EXEC => .EXEC
  | _ => .READ

/-- A machine with TLBs and one without, between two accesses: the same memory, and every
TLB entry is what a translation would find again. -/
structure Related (m t : MMU) : Prop where
  pmem : m.pmem_ = t.pmem_
  size : m.pmem_size_ = t.pmem_size_
  satp : m.satp = t.satp
  virt : m.isVirtualAddressing = true
  valid : ∀ acc, ((tlbOf acc).get m).Valid
  settled : ∀ acc va pa, ((tlbOf acc).get m).Maps va pa → m.Settled va (entryType acc) pa

/-- The access misses a TLB that is full by count but has no element to evict. -/
def StuckAt (a : Access) (m : MMU) : Prop :=
  ((tlbOf a.type).get m).links_ a.va = none ∧ ((tlbOf a.type).get m).Stuck

def HitIsWritable (a : Access) (m : MMU) : Prop :=
  a.type = .WRITE → m.dataTLB_.links_ a.va ≠ none → m.Writable a.va

def AvoidsTables (a : Access) (m : MMU) : Prop :=
  a.type = .WRITE → ∀ pa m', (translate a.va .WRITE).run m = .ok pa m' →
    ∀ ptr, m.getMemPtr a.size pa = .ok ptr → ∀ q, m.TableWord q → ptr + a.size ≤ q ∨ q + 4 ≤ ptr

section

variable {m t : MMU}

theorem Related.evolves (h : Related m t) : TablesEvolve m t where
  size := h.size.symm
  satp := h.satp.symm
  words ptr _ := .inl (by rw [pteAt, pteAt, readMem, readMem, h.pmem])

theorem Related.virt' (h : Related m t) : t.isVirtualAddressing = true := by
  rw [isVirtualAddressing, ← h.satp]
  exact h.virt

theorem Related.next {m' t' : MMU} (h : Related m t) (he : TablesEvolve m m')
    (hp : m'.pmem_ = t'.pmem_) (hs : t'.pmem_size_ = t.pmem_size_) (ht : t'.satp = t.satp)
    (hv : ∀ acc, ((tlbOf acc).get m').Valid)
    (hm : ∀ acc va pa, ((tlbOf acc).get m').Maps va pa →
      ((tlbOf acc).get m).Maps va pa ∨ m'.Settled va (entryType acc) pa) : Related m' t' where
  pmem := hp
  size := by rw [he.size, h.size, hs]
  satp := by rw [he.satp, h.satp, ht]
  virt := by
    rw [isVirtualAddressing, he.satp]
    exact h.virt
  valid := hv
  settled acc va pa hmap := by
    rcases hm acc va pa hmap with hold | hnew
    · exact (h.settled acc va pa hold).evolve he
    · exact hnew

theorem Related.settled_hit (h : Related m t) {a : Access} {pa : U64}
    (hm : ((tlbOf a.type).get m).Maps a.va pa) (hl : ((tlbOf a.type).get m).links_ a.va ≠ none)
    (hw : HitIsWritable a m) : m.Settled a.va a.type pa := by
  have hs := h.settled a.type a.va pa hm
  cases a with
  | fetch n va => exact hs
  | load n va => exact hs
  | store n va data => exact hs.write_of_read (hw rfl hl)

end

section

variable (acc : AccessType) (c : LRUCache U32 PhysAddr) (m : MMU)

theorem tlb_get_set (acc' : AccessType) :
    tlbOf acc' = tlbOf acc ∧ entryType acc' = entryType acc ∨
      (tlbOf acc').get ((tlbOf acc).set c m) = (tlbOf acc').get m := by
  cases acc <;> cases acc' <;> first | exact .inl ⟨rfl, rfl⟩ | exact .inr rfl

end

theorem TablesEvolve.trans_set {m m' : MMU} (h : TablesEvolve m m') (acc : AccessType)
    (c : LRUCache U32 PhysAddr) : TablesEvolve m ((tlbOf acc).set c m') where
  size := (tlb_set_evolves acc c m').size.trans h.size
  satp := (tlb_set_evolves acc c m').satp.trans h.satp
  words ptr hp := by
    have hw := h.words ptr hp
    unfold pteAt readMem at hw ⊢
    rwa [tlb_set_pmem]

theorem valid_set {m : MMU} (h : ∀ acc, ((tlbOf acc).get m).Valid) {c : LRUCache U32 PhysAddr}
    (hc : c.Valid) {acc : AccessType} (acc' : AccessType) :
    ((tlbOf acc').get ((tlbOf acc).set c m)).Valid := by
  rcases tlb_get_set acc c m acc' with ⟨ht, -⟩ | hg
  · rwa [ht, (tlbOf acc).get_set]
  · rw [hg]
    exact h acc'

/-- An entry of either TLB after an access is an old one, or the one the access has made. -/
theorem maps_set {m m' : MMU} {acc : AccessType} {c : LRUCache U32 PhysAddr} {P : U32 → U64 → Prop}
    (hsub : ∀ va v, c.Maps va v → P va v ∨ ((tlbOf acc).get m).Maps va v)
    (hsame : ∀ acc, (tlbOf acc).get m' = (tlbOf acc).get m) (acc' : AccessType) {va : U32} {v : U64}
    (hm : ((tlbOf acc').get ((tlbOf acc).set c m')).Maps va v) :
    ((tlbOf acc').get m).Maps va v ∨ entryType acc' = entryType acc ∧ P va v := by
  rcases tlb_get_set acc c m' acc' with ⟨ht, hent⟩ | hg
  · rw [ht, (tlbOf acc).get_set] at hm
    rcases hsub va v hm with hnew | hold
    · exact .inr ⟨hent, hnew⟩
    · rw [ht]
      exact .inl hold
  · rw [hg, hsame] at hm
    exact .inl hm

theorem usable_of_not_stuckAt {m : MMU} {a : Access} (hv : ((tlbOf a.type).get m).Valid)
    (hs : ¬ StuckAt a m) : ((tlbOf a.type).get m).Usable where
  valid := hv
  notStuck hst := by
    refine hs ⟨(LRUCache.links_eq_none hv).mpr fun e he ↦ ?_, hst⟩
    rw [hst.1] at he
    cases he

theorem physAddr_alike {m t : MMU} (h : Related m t) {a : Access} (hs : ¬ StuckAt a m)
    (hw : HitIsWritable a m) :
    Alike (fun pa pa' ↦ pa = pa' ∧ ∃ m', (translate a.va a.type).run m = .ok pa m')
      (fun m' t' ↦ Related m' t' ∧ TablesEvolve m m') Related
      ((physAddr (tlbOf a.type) a.va a.type).run m) ((translate a.va a.type).run t) := by
  have hu := usable_of_not_stuckAt (h.valid a.type) hs
  have hcases := @physAddr_cases a.type m _ h.virt hu a.va
  rw [(tlbOf a.type).set_get] at hcases
  rcases hcases with ⟨pa, c', hmap, hphys, hc', hsub⟩ | ⟨herr, hok⟩
  · have hlinked : ((tlbOf a.type).get m).links_ a.va ≠ none := by
      intro hnone
      obtain ⟨e, he, hk, -⟩ := hmap
      exact (LRUCache.links_eq_none hu.valid).mp hnone e he hk
    have hset := h.settled_hit hmap hlinked fun ht hne ↦ hw ht hne
    rw [hphys, (hset.evolve h.evolves).translate h.virt']
    refine .ok ⟨rfl, m, hset.translate h.virt⟩ ⟨?_, tlb_set_evolves _ _ _⟩
    refine h.next (tlb_set_evolves _ _ _) (by rw [tlb_set_pmem, h.pmem]) rfl rfl
      (valid_set h.valid hc'.valid) fun acc va v hm ↦ ?_
    rcases maps_set (P := fun _ _ ↦ False) (fun va v hm ↦ .inr (hsub va v hm)) (fun _ ↦ rfl) acc hm with
      hold | ⟨-, hno⟩
    · exact .inl hold
    · exact hno.elim
  · rw [translate_run h.virt', translate_run h.virt, h.evolves.leafOf]
    cases hl : m.leafOf a.va a.type with
    | error e =>
      have hpa : m.physOf a.type a.va = .error e := by
        rw [physOf, hl]
        rfl
      obtain ⟨c', hphys, hc', hsub⟩ := herr e hpa
      rw [hphys]
      refine .error (h.next (tlb_set_evolves _ _ _) (by rw [tlb_set_pmem, h.pmem]) rfl rfl
        (valid_set h.valid hc') fun acc va v hm ↦ ?_)
      rcases maps_set (P := fun _ _ ↦ False) (fun va v hm ↦ .inr (hsub va v hm)) (fun _ ↦ rfl) acc hm
        with hold | ⟨-, hno⟩
      · exact .inl hold
      · exact hno.elim
    | ok r =>
      obtain ⟨ptr, i⟩ := r
      obtain ⟨c', hphys, hc', hsub⟩ := hok _ (physOf_eq_ok.mpr ⟨ptr, i, hl, rfl⟩)
      have hpt : t.pteAt ptr = m.pteAt ptr := by
        unfold pteAt readMem
        rw [h.pmem]
      have hget : ∀ acc, (tlbOf acc).get (m.mark a.type a.va) = (tlbOf acc).get m := by
        intro acc
        rw [mark_of_ok hl, tlb_get_writeMem]
      have hnew : (m.mark a.type a.va).Settled a.va (entryType a.type) (leafAddr a.va (m.pteAt ptr) i) := by
        have hset := settled_mark (physOf_eq_ok.mpr ⟨ptr, i, hl, rfl⟩)
        cases a with
        | fetch n va => exact hset
        | load n va => exact hset
        | store n va data => exact hset.read_of_write
      have hev := mark_evolves a.type m a.va
      rw [hphys]
      dsimp only
      rw [hpt, leafAddr_touch]
      refine .ok ⟨rfl, _, rfl⟩ ⟨?_, hev.trans_set _ _⟩
      refine h.next (hev.trans_set _ _) ?_ rfl rfl
        (valid_set (fun acc ↦ by rw [hget]; exact h.valid acc) hc'.valid) fun acc va v hm ↦ ?_
      · rw [tlb_set_pmem, mark_of_ok hl, writeMem, writeMem, h.pmem]
      · rcases maps_set hsub hget acc hm with hold | ⟨hent, rfl, rfl⟩
        · exact .inl hold
        · rw [hent]
          exact .inr (hnew.evolve (tlb_set_evolves _ _ _))

theorem finish_alike {m t : MMU} (h : Related m t) (a : Access) (pa : U64)
    (hd : ∀ ptr, m.getMemPtr a.size pa = .ok ptr → a.type = .WRITE →
      ∀ q, m.TableWord q → ptr + a.size ≤ q ∨ q + 4 ≤ ptr) :
    Alike Eq Related Related ((finish a pa).run m) ((finish a pa).run t) := by
  have hg : t.getMemPtr a.size pa = m.getMemPtr a.size pa := by rw [getMemPtr, getMemPtr, h.size]
  unfold finish
  rw [run_bind_of_ok (EStateM.run_get m), run_bind_of_ok (EStateM.run_get t), hg]
  cases hp : m.getMemPtr a.size pa with
  | error e => exact .error h
  | ok ptr =>
    rw [run_bind_of_ok (run_lift_ok ptr m), run_bind_of_ok (run_lift_ok ptr t)]
    cases a with
    | fetch n va => exact .ok (by simp only [readMem, h.pmem]) h
    | load n va => exact .ok (by simp only [readMem, h.pmem]) h
    | store n va data =>
      have hev : TablesEvolve m (m.writeMem ptr data) :=
        ⟨rfl, rfl, fun q hq ↦ .inl (Bytes.read_write_of_disjoint _ _ (by
          rcases hd ptr hp rfl q hq with hlt | hge
          · exact .inr hlt
          · exact .inl hge))⟩
      refine .ok rfl (h.next hev (by simp only [writeMem, h.pmem]) rfl rfl ?_ ?_)
      · exact fun acc ↦ by rw [tlb_get_writeMem]; exact h.valid acc
      · exact fun acc va pa hmap ↦ .inl (by rwa [tlb_get_writeMem] at hmap)

theorem TablesEvolve.tableWord {m m' : MMU} (h : TablesEvolve m m') {q : ℕ} :
    m'.TableWord q ↔ m.TableWord q := by
  have hp : ∀ va, m'.walkPtrs va 1 m'.rootTable = m.walkPtrs va 1 m.rootTable := fun va ↦ by
    rw [h.rootTable]
    exact (walk_congr h.size fun ptr hp ↦ h.words ptr ⟨va, hp⟩).2
  simp only [TableWord, hp]

structure Transparent (a : Access) (m : MMU) : Prop where
  notStuck : ¬ StuckAt a m
  hit : HitIsWritable a m

theorem access_alike {m t : MMU} (h : Related m t) {a : Access} (hT : Transparent a m)
    (hA : AvoidsTables a m) :
    Alike Eq Related Related ((access a).run m) ((accessFresh a).run t) := by
  refine (physAddr_alike h hT.notStuck hT.hit).bind ?_
  rintro pa _ m' t' ⟨rfl, m'', htr⟩ ⟨h', hev⟩
  refine (finish_alike h' a pa ?_).bind ?_
  · intro ptr hp ht q hq
    rw [getMemPtr, hev.size] at hp
    rw [ht] at htr
    exact hA ht pa m'' htr ptr hp q (hev.tableWord.mp hq)
  · rintro v _ m₁ t₁ rfl h₁
    exact .ok rfl h₁

/-- The TLBs are transparent along every sequence of accesses that starts with them
flushed, leaves the page tables alone, and whose steps all meet `Transparent`. -/
theorem access_transparent (mmu : MMU) (hv : mmu.isVirtualAddressing = true)
    (accesses : List Access)
    (hT : Simulation.Along (fun a ↦ Simulation.attempt (access a))
      (fun a m ↦ Transparent a m ∧ AvoidsTables a m) accesses mmu.flush) :
    let cached := Simulation.run (fun a ↦ Simulation.attempt (access a)) accesses mmu.flush
    let fresh := Simulation.run (fun a ↦ Simulation.attempt (accessFresh a)) accesses mmu.flush
    cached.1 = fresh.1 ∧ cached.2.pmem_ = fresh.2.pmem_ := by
  have hR : Related mmu.flush mmu.flush := by
    refine ⟨rfl, rfl, rfl, hv, ?_, ?_⟩
    · intro acc
      cases acc <;> exact LRUCache.clear_valid _
    · intro acc va pa hmap
      cases acc <;> exact absurd hmap (LRUCache.not_maps_clear _ _ _)
  have hstep : ∀ (a : Access) (m t : MMU), Related m t → Transparent a m ∧ AvoidsTables a m →
      (Simulation.attempt (access a) m).1 = (Simulation.attempt (accessFresh a) t).1 ∧
        Related (Simulation.attempt (access a) m).2 (Simulation.attempt (accessFresh a) t).2 :=
    fun a m t h hP ↦ Simulation.attempt_eq (access_alike h hP.1 hP.2)
  have hrun := Simulation.run_eq hstep accesses hT hR
  exact ⟨hrun.1, hrun.2.pmem⟩

/-- A table in frame 2 that maps the first page to frame 4, for reading. -/
def readOnly : MMU where
  instTLB_ := .new 4
  dataTLB_ := .new 4
  pmem_size_ := 0x8000
  pmem_ :=
    let mem := Bytes.write (n := 4) (fun _ ↦ 0) 0x1000 0x801#32
    Bytes.write (n := 4) mem 0x2000 0x1003#32
  satp := 0x80000001#32

theorem table_ptr {mmu : MMU} {base : U64} {v : U32} {ptr : ℕ} (hb : base.toNat < 2 ^ 16)
    (hv : v.toNat < 1024) (h : mmu.getMemPtr 4 (base + (ptesize * v).setWidth 64) = .ok ptr) :
    ptr = base.toNat + 4 * v.toNat := by
  have hval : ((base + (ptesize * v).setWidth 64).setWidth 32).toNat = base.toNat + 4 * v.toNat := by
    rw [ptesize]
    bv_omega
  rw [getMemPtr, hval] at h
  split at h
  · cases h
  · cases h
    rfl

theorem vpn_lt (va : U32) (i : ℕ) : (vpn va i).toNat < 1024 := by
  unfold vpn
  split <;> bv_omega

/-- The tables of a machine like this end at the third frame. -/
theorem tableWord_lt {mmu : MMU} (hsatp : mmu.satp = 0x80000001#32)
    (hroot : ∀ k < 1024, mmu.pteAt (0x1000 + 4 * k) = if k = 0 then 0x801#32 else 0#32) {q : ℕ}
    (h : mmu.TableWord q) : q < 0x3000 := by
  obtain ⟨va, h⟩ := h
  have hbase : mmu.rootTable = 0x1000#64 := by
    rw [rootTable, hsatp]
    decide
  rw [walkPtrs, hbase] at h
  have hv := vpn_lt va 1
  have hfirst : (0x1000#64).toNat = 0x1000 := rfl
  have hsecond : (0x2000#64).toNat = 0x2000 := rfl
  cases hp : mmu.getMemPtr 4 (0x1000#64 + (ptesize * vpn va 1).setWidth 64) with
  | error e =>
    rw [hp] at h
    cases h
  | ok ptr =>
    have hptr := table_ptr (by decide) hv hp
    rw [hp, hptr] at h
    rcases List.mem_cons.mp h with rfl | h
    · omega
    · rw [hfirst, hroot _ hv] at h
      split at h
      · rw [if_pos (by decide)] at h
        dsimp only at h
        rw [show ((0x801#32 >>> 10 * pagesize).setWidth 64 : U64) = 0x2000#64 by decide,
          walkPtrs] at h
        cases hp' : mmu.getMemPtr 4 (0x2000#64 + (ptesize * vpn va 0).setWidth 64) with
        | error e =>
          rw [hp'] at h
          cases h
        | ok ptr' =>
          have hv' := vpn_lt va 0
          have hptr' := table_ptr (by decide) hv' hp'
          rw [hp'] at h
          dsimp only at h
          rcases List.mem_cons.mp h with rfl | h
          · omega
          · split at h <;> cases h
      · rw [if_neg (by decide)] at h
        cases h

theorem pteAt_readOnly {k : ℕ} (hk : k < 1024) :
    readOnly.pteAt (0x1000 + 4 * k) = if k = 0 then 0x801#32 else 0#32 := by
  let blank : MMU := { readOnly with pmem_ := fun _ ↦ 0 }
  have hq : (0x1000 + 4 * k) % 4 = 0 := by omega
  change ((blank.writeMem (n := 4) 0x1000 0x801#32).writeMem (n := 4) 0x2000 0x1003#32).pteAt _ = _
  rw [pteAt_writeMem (by decide) hq, if_neg (by omega), pteAt_writeMem (by decide) hq]
  by_cases hz : k = 0
  · rw [if_pos (by omega), if_pos hz]
  · rw [if_neg (by omega), if_neg hz]
    refine Bytes.eq_of_byte (n := 4) fun i hi ↦ ?_
    exact (Bytes.byte_read _ _ hi).trans BitVec.extractLsb'_zero.symm

/-- The second page is mapped to frame 6, for reading and writing, and D is set. -/
def readWrite : MMU := readOnly.writeMem (n := 4) 0x2004 0x1887#32

/-- The store and the second load hit the entry of the first, and the fetch is refused. -/
theorem access_transparent_readWrite :
    let accesses := [.load 4 0x1000#32, .store 4 0x1000#32 7#32, .load 4 0x1000#32, .fetch 4 0x1000#32]
    let cached := Simulation.run (fun a ↦ Simulation.attempt (access a)) accesses readWrite.flush
    let fresh := Simulation.run (fun a ↦ Simulation.attempt (accessFresh a)) accesses readWrite.flush
    cached.1 = fresh.1 ∧ cached.2.pmem_ = fresh.2.pmem_ ∧
      cached.1.map Except.isOk = [true, true, true, false] ∧ cached.2.readMem 4 0x6000 = 7 := by
  intro accesses cached fresh
  have hread : ∀ (a : Access) (m : MMU), a.type ≠ .WRITE → ¬ StuckAt a m →
      Transparent a m ∧ AvoidsTables a m :=
    fun a m ht hs ↦ ⟨⟨hs, fun h ↦ absurd h ht⟩, fun h ↦ absurd h ht⟩
  let m := (Simulation.attempt (access (.load 4 0x1000#32)) readWrite.flush).2
  have hmem : m.pmem_ = (readWrite.writeMem (n := 4) 0x2004 0x18c7#32).pmem_ := rfl
  have htables : ∀ q, m.TableWord q → q < 0x3000 := by
    refine fun q ↦ tableWord_lt rfl fun k hk ↦ ?_
    have hq : (0x1000 + 4 * k) % 4 = 0 := by omega
    rw [pteAt, readMem, hmem]
    change (readWrite.writeMem (n := 4) 0x2004 0x18c7#32).pteAt _ = _
    rw [pteAt_writeMem (by decide) hq, if_neg (by omega), readWrite, pteAt_writeMem (by decide) hq,
      if_neg (by omega), pteAt_readOnly hk]
  have hstore : Transparent (.store 4 0x1000#32 7#32) m ∧ AvoidsTables (.store 4 0x1000#32 7#32) m := by
    refine ⟨⟨?_, fun _ _ ↦ ⟨0x2004, 0, by decide, by decide, by decide⟩⟩, ?_⟩
    · rintro ⟨-, -, h⟩
      exact absurd h (by decide)
    · intro _ pa m' htr ptr hp q hq
      have hlt := htables q hq
      have hleaf : m.leafOf 0x1000#32 .WRITE = .ok (0x2004, 0) := by decide
      obtain ⟨_, _, hl, rfl, -⟩ := (translate_eq_ok (show m.isVirtualAddressing = true by decide)).mp htr
      cases hleaf.symm.trans hl
      have hptr : m.getMemPtr 4 (leafAddr 0x1000#32 (touch .WRITE (m.pteAt 0x2004)) 0) = .ok 0x6000 := by
        decide
      cases hptr.symm.trans hp
      exact .inr (by omega)
  have hrun := access_transparent readWrite (by decide) accesses
    (Simulation.along_cons.mpr ⟨hread _ _ (by decide) ?_, Simulation.along_cons.mpr ⟨hstore,
      Simulation.along_cons.mpr ⟨hread _ _ (by decide) ?_, Simulation.along_cons.mpr
        ⟨hread _ _ (by decide) ?_, trivial⟩⟩⟩⟩)
  · exact ⟨hrun.1, hrun.2, by decide, by decide⟩
  all_goals
    rintro ⟨-, -, h⟩
    exact absurd h (by decide)

/-- A store after a load of the same address is not checked for W. -/
theorem store_after_load : ¬ ∀ mmu : MMU, mmu.isVirtualAddressing = true →
    0 < mmu.instTLB_.max_size_ → 0 < mmu.dataTLB_.max_size_ → ∀ accesses : List Access,
      Simulation.Along (fun a ↦ Simulation.attempt (access a)) AvoidsTables accesses mmu.flush →
        (Simulation.run (fun a ↦ Simulation.attempt (access a)) accesses mmu.flush).1 =
          (Simulation.run (fun a ↦ Simulation.attempt (accessFresh a)) accesses mmu.flush).1 := by
  intro h
  have hfault : (Simulation.attempt (translate 0#32 .WRITE)
      (Simulation.attempt (access (.load 4 0#32)) readOnly.flush).2).1.isOk = false := by decide
  have hstore : AvoidsTables (.store 4 0#32 7#32)
      (Simulation.attempt (access (.load 4 0#32)) readOnly.flush).2 := by
    intro _ pa m' htr
    rw [Simulation.attempt_of_ok (x := translate 0#32 .WRITE) htr] at hfault
    cases hfault
  have heq := h readOnly (by decide) (by decide) (by decide) [.load 4 0#32, .store 4 0#32 7#32]
    (Simulation.along_cons.mpr ⟨nofun, Simulation.along_cons.mpr ⟨hstore, trivial⟩⟩)
  exact absurd (congrArg (List.map Except.isOk) heq) (by decide)

end MMU

end RiscvSim
