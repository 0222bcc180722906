import RiscvSim.Coherent
import RiscvSim.Rounds

namespace RiscvSim

open Isa Ir State Results

namespace LRUCache

variable {κ α : Type} {c : LRUCache κ α}

/-- Nothing is in the cache, and no constructor has thrown. -/
structure Blank (c : LRUCache κ α) : Prop where
  valid : c.Valid
  entries : c.entries_ = []
  count : c.cur_size_ = 0

theorem new_blank (n : ℕ) : (new n : LRUCache κ α).Blank := ⟨new_valid n, rfl, rfl⟩

theorem clear_blank (c : LRUCache κ α) : c.clear.Blank := ⟨c.clear_valid, rfl, rfl⟩

theorem Blank.not_maps (h : c.Blank) (k : κ) (v : α) : ¬ c.Maps k v := by
  rintro ⟨e, he, -⟩
  rw [h.entries] at he
  cases he

theorem Blank.links_eq_none (h : c.Blank) (k : κ) : c.links_ k = none := by
  cases hl : c.links_ k with
  | none => rfl
  | some a =>
    obtain ⟨e, he, -⟩ := (h.valid.links k a).mp hl
    rw [h.entries] at he
    cases he

theorem Blank.usable (h : c.Blank) (hsize : c.max_size_ ≠ 0) : c.Usable where
  valid := h.valid
  notStuck hs := hsize (hs.2.symm.trans h.count)

theorem Blank.makeRoom_error [DecidableEq κ] (h : c.Blank) (hsize : c.max_size_ = 0) :
    c.makeRoom = .error .undefinedBehaviour := by
  rw [makeRoom, if_neg (by rw [hsize]; exact Nat.not_lt_zero _), h.entries]
  rfl

theorem Usable.max_ne_zero (h : c.Usable) : c.max_size_ ≠ 0 := by
  intro hsize
  have hcount : c.cur_size_ = 0 := Nat.le_zero.mp (h.valid.bound.trans_eq hsize)
  have hlen : c.entries_.length = 0 := Nat.le_zero.mp (h.valid.size.trans_eq hcount)
  exact h.notStuck ⟨List.length_eq_zero_iff.mp hlen, hcount.trans hsize.symm⟩

end LRUCache

namespace MMU

/-- What translations do to a memory, as fetches see it. -/
structure SameFetch (m m' : MMU) : Prop where
  size : m'.pmem_size_ = m.pmem_size_
  satp : m'.satp = m.satp
  phys : ∀ a, m'.physOf .EXEC a = m.physOf .EXEC a
  settled : ∀ a pa, m.Settled a .EXEC pa → m'.Settled a .EXEC pa

instance : Std.Refl SameFetch := ⟨fun _ ↦ ⟨rfl, rfl, fun _ ↦ rfl, fun _ _ h ↦ h⟩⟩

instance : IsTrans MMU SameFetch where
  trans _ _ _ h h' := ⟨h'.size.trans h.size, h'.satp.trans h.satp,
    fun a ↦ (h'.phys a).trans (h.phys a), fun a pa hs ↦ h'.settled a pa (h.settled a pa hs)⟩

theorem TablesEvolve.sameFetch {m m' : MMU} (h : TablesEvolve m m') : SameFetch m m' where
  size := h.size
  satp := h.satp
  phys a := h.physOf .EXEC a
  settled _ _ hs := hs.evolve h

/-- Bits are set in memory, and none is cleared. -/
def Grows (m m' : MMU) : Prop := ∀ b, m.pmem_ b ||| m'.pmem_ b = m'.pmem_ b

instance : Std.Refl Grows := ⟨fun _ _ ↦ BitVec.or_self⟩

instance : IsTrans MMU Grows where
  trans m m' m'' h h' b := by
    rw [← h' b, ← BitVec.or_assoc, h b]

theorem Grows.between {m m' m'' : MMU} (h : Grows m m') (h' : Grows m' m'') {b : ℕ}
    (hb : m''.pmem_ b = m.pmem_ b) : m'.pmem_ b = m.pmem_ b := by
  have hup := h b
  have hdown := h' b
  rw [hb, BitVec.or_comm] at hdown
  exact hup.symm.trans hdown

theorem mark_grows (acc : AccessType) (m : MMU) (a : U32) : Grows m (m.mark acc a) := by
  cases hl : m.leafOf a acc with
  | error e =>
    rw [mark_of_error hl]
    exact refl m
  | ok r =>
    rw [mark_of_ok hl]
    intro b
    have hor := @Bytes.or_write_or 4 m.pmem_ r.1 (touch acc 0#32) b
    rw [touch_eq_or]
    exact hor

def codePtr (m : MMU) (va : U32) : Except Stop ℕ :=
  if m.isVirtualAddressing then (m.physOf .EXEC va).map fun pa ↦ pa.toNat % 2 ^ 32
  else .ok va.toNat

def codeBytes (m : MMU) (va : U32) (n : ℕ) : Set ℕ :=
  {b | ∃ j < n, ∃ p, m.codePtr (va + BitVec.ofNat 32 (4 * j)) = .ok p ∧ p ≤ b ∧ b < p + 4}

/-- The page table leads to these instructions, and the accessed bits are set. -/
def MappedAt (m : MMU) : U32 → List Inst → Prop
  | _, [] => True
  | va, inst :: rest => (∃ pa, m.Settled va .EXEC pa ∧ pa.toNat % 2 ^ 32 + 4 < m.pmem_size_ ∧
      Decoder.decoder_.decode (m.readMem 4 (pa.toNat % 2 ^ 32)) = .ok inst) ∧ MappedAt m (va + 4) rest

variable {m m' : MMU} {va : U32} {insts : List Inst}

theorem codePtr_virt (hv : m.isVirtualAddressing = true) {pa : U64} (h : m.physOf .EXEC va = .ok pa) :
    m.codePtr va = .ok (pa.toNat % 2 ^ 32) := by
  rw [codePtr, if_pos hv, h]
  rfl

theorem SameFetch.virt (h : SameFetch m m') : m'.isVirtualAddressing = m.isVirtualAddressing := by
  rw [isVirtualAddressing, isVirtualAddressing, h.satp]

theorem SameFetch.codePtr (h : SameFetch m m') (va : U32) : m'.codePtr va = m.codePtr va := by
  rw [MMU.codePtr, MMU.codePtr, h.virt, h.phys]

theorem SameFetch.codeBytes (h : SameFetch m m') (va : U32) (n : ℕ) : m'.codeBytes va n = m.codeBytes va n := by
  simp only [MMU.codeBytes, h.codePtr]

theorem codeBytes_head {n p b : ℕ} (hp : m.codePtr va = .ok p) (hl : p ≤ b) (hu : b < p + 4) :
    b ∈ m.codeBytes va (n + 1) := by
  refine ⟨0, Nat.succ_pos n, p, ?_, hl, hu⟩
  rw [Nat.mul_zero, BitVec.add_zero]
  exact hp

theorem codeBytes_tail (m : MMU) (va : U32) (n : ℕ) : m.codeBytes (va + 4) n ⊆ m.codeBytes va (n + 1) := by
  rintro b ⟨j, hj, p, hp, hb⟩
  refine ⟨j + 1, Nat.succ_lt_succ hj, p, ?_, hb⟩
  rw [word_succ]
  exact hp

theorem MappedAt.follow (hv : m.isVirtualAddressing = true) (h : m.MappedAt va insts) (hf : SameFetch m m')
    (hb : ∀ b ∈ m.codeBytes va insts.length, m'.pmem_ b = m.pmem_ b) : m'.MappedAt va insts := by
  induction insts generalizing va with
  | nil => exact trivial
  | cons inst rest ih =>
    obtain ⟨⟨pa, hs, hsize, hd⟩, hrest⟩ := h
    refine ⟨⟨pa, hf.settled va pa hs, by rwa [hf.size], ?_⟩, ih hrest fun b hmem ↦ ?_⟩
    · have hsame : m'.readMem 4 (pa.toNat % 2 ^ 32) = m.readMem 4 (pa.toNat % 2 ^ 32) := by
        rw [readMem, readMem]
        exact Bytes.read_congr fun b hl hu ↦ hb b (codeBytes_head (codePtr_virt hv hs.physOf) hl hu)
      rw [hsame]
      exact hd
    · exact hb b (codeBytes_tail m va rest.length hmem)

theorem flush_sameFetch (m : MMU) : SameFetch m m.flush :=
  TablesEvolve.sameFetch ⟨rfl, rfl, fun _ _ ↦ .inl rfl⟩

/-- The words of the page tables are as they were, or have been marked by translations. -/
def TablesKept (m m' : MMU) : Prop := ∀ ptr, m.TableWord ptr → Evolves (m.pteAt ptr) (m'.pteAt ptr)

theorem coherent_of_blank (hv : m.isVirtualAddressing = true) (h : m.instTLB_.Blank)
    (hsize : m.instTLB_.max_size_ ≠ 0) : m.Coherent .EXEC where
  virt := hv
  usable := h.usable hsize
  settled va pa hm := absurd hm (h.not_maps va pa)

theorem Coherent.flush (h : m.Coherent .EXEC) : m.flush.Coherent .EXEC :=
  coherent_of_blank h.virt (LRUCache.clear_blank _) h.usable.max_ne_zero

theorem Coherent.follow (h : m.Coherent .EXEC) (hf : SameFetch m m') (ht : m'.instTLB_ = m.instTLB_) :
    m'.Coherent .EXEC where
  virt := hf.virt.trans h.virt
  usable := by
    change m'.instTLB_.Usable
    rw [ht]
    exact h.usable
  settled va pa hm := by
    change m'.instTLB_.Maps va pa at hm
    rw [ht] at hm
    exact hf.settled va pa (h.settled va pa hm)

/-- The instruction TLB is empty, or answers as the page table does. -/
def Faithful (m : MMU) : Prop := m.instTLB_.Blank ∨ m.Coherent .EXEC

end MMU

namespace Trace

variable {s s' : State} {fuel : ℕ} {va : U32} {insts : List Inst}

theorem getCmd_paged (h : s.mmu.Coherent .EXEC) {cmd : U32} (hrun : (getCmd va).run s = .ok cmd s') :
    s'.mmu.Coherent .EXEC ∧ MMU.SameFetch s.mmu s'.mmu ∧ MMU.Grows s.mmu s'.mmu ∧
      ∃ pa, s'.mmu.Settled va .EXEC pa ∧ pa.toNat % 2 ^ 32 + 4 < s'.mmu.pmem_size_ ∧
        s'.mmu.readMem 4 (pa.toNat % 2 ^ 32) = cmd := by
  have hself : (MMU.tlbOf .EXEC).set s.mmu.instTLB_ s.mmu = s.mmu := rfl
  have hco : ((MMU.tlbOf .EXEC).set s.mmu.instTLB_ s.mmu).Coherent .EXEC := h
  obtain ⟨herr, hok⟩ := @MMU.Coherent.load s.mmu s.mmu.instTLB_ true hco 4 va
  rw [getCmd, onMmu, run_zoom] at hrun
  cases hw : s.mmu.wordAt (MMU.readType true) 4 va with
  | error e =>
    obtain ⟨m', hload⟩ := herr e hw
    rw [show (MMU.load 4 va).run s.mmu = _ from hload] at hrun
    cases hrun
  | ok w =>
    obtain ⟨c', hload, hco'⟩ := hok w hw
    rw [show (MMU.load 4 va).run s.mmu = _ from hload] at hrun
    cases hrun
    obtain ⟨pa, hpa, hsize, hread⟩ := MMU.wordAt_eq_ok.mp hw
    have hf : MMU.SameFetch s.mmu ((MMU.tlbOf .EXEC).set c' (s.mmu.mark .EXEC va)) :=
      IsTrans.trans _ _ _ (MMU.mark_evolves .EXEC s.mmu va).sameFetch (MMU.tlb_set_evolves .EXEC c' _).sameFetch
    refine ⟨hco', hf, MMU.mark_grows .EXEC s.mmu va, pa, ?_, lt_of_lt_of_eq hsize hf.size.symm, hread⟩
    exact MMU.Settled.set_tlb.mpr (MMU.settled_mark hpa)

/-- What the constructor fetches through a coherent TLB is what the page table leads to, if no bit of
these words is set on the way. -/
theorem fetchFrom_paged (h : s.mmu.Coherent .EXEC) (hrun : (fetchFrom fuel va).run s = .ok insts s') :
    s'.mmu.Coherent .EXEC ∧ MMU.SameFetch s.mmu s'.mmu ∧ MMU.Grows s.mmu s'.mmu ∧
      ((∀ b ∈ s.mmu.codeBytes va insts.length, s'.mmu.pmem_ b = s.mmu.pmem_ b) →
        s'.mmu.MappedAt va insts) := by
  induction fuel generalizing va s insts with
  | zero => cases hrun
  | succ fuel ih =>
    obtain ⟨cmd, s₁, hcmd, h₁⟩ := run_bind_eq_ok.mp hrun
    obtain ⟨inst, s₂, hdec, h₂⟩ := run_bind_eq_ok.mp h₁
    obtain ⟨hd, rfl⟩ := run_lift_eq_ok.mp hdec
    obtain ⟨hco, hf, hg, pa, hs, hsize, hread⟩ := getCmd_paged h hcmd
    rw [← hread] at hd
    cases ht : inst.isTerminator with
    | true =>
      rw [if_pos ht] at h₂
      cases h₂
      exact ⟨hco, hf, hg, fun _ ↦ ⟨⟨pa, hs, hsize, hd⟩, trivial⟩⟩
    | false =>
      rw [if_neg (by rw [ht]; exact Bool.false_ne_true)] at h₂
      obtain ⟨rest, s₃, h₃, hr⟩ := run_bind_eq_ok.mp h₂
      cases hr
      obtain ⟨hco', hf', hg', hmapped⟩ := ih hco h₃
      refine ⟨hco', IsTrans.trans _ _ _ hf hf', IsTrans.trans _ _ _ hg hg', fun hb ↦ ⟨⟨pa, ?_⟩, ?_⟩⟩
      · have hptr : s.mmu.codePtr va = .ok (pa.toNat % 2 ^ 32) := by
          rw [← hf.codePtr]
          exact MMU.codePtr_virt hco.virt hs.physOf
        refine ⟨hf'.settled va pa hs, by rwa [hf'.size], ?_⟩
        have hsame : s'.mmu.readMem 4 (pa.toNat % 2 ^ 32) = s₂.mmu.readMem 4 (pa.toNat % 2 ^ 32) := by
          rw [MMU.readMem, MMU.readMem]
          refine Bytes.read_congr fun b hl hu ↦ ?_
          have hall := hb b (MMU.codeBytes_head hptr hl hu)
          rw [hall, hg.between hg' hall]
        rw [hsame]
        exact hd
      · refine hmapped fun b hmem ↦ ?_
        rw [hf.codeBytes] at hmem
        have hall := hb b (MMU.codeBytes_tail _ va rest.length hmem)
        rw [hall, hg.between hg' hall]

theorem fetchFrom_mapped (h : s.mmu.Coherent .EXEC) (ht : IsTrace insts) (hm : s.mmu.MappedAt va insts)
    (hf : insts.length ≤ fuel) : ∃ s', (fetchFrom fuel va).run s = .ok insts s' := by
  induction insts generalizing va s fuel with
  | nil => exact absurd rfl ht.ne_nil
  | cons inst rest ih =>
    obtain ⟨fuel, rfl⟩ : ∃ n, fuel = n + 1 := ⟨fuel - 1, by simp only [List.length_cons] at hf; omega⟩
    obtain ⟨⟨pa, hs, hsize, hd⟩, hrest⟩ := hm
    have hco : ((MMU.tlbOf .EXEC).set s.mmu.instTLB_ s.mmu).Coherent .EXEC := h
    have hword : s.mmu.wordAt (MMU.readType true) 4 va = .ok (s.mmu.readMem 4 (pa.toNat % 2 ^ 32)) := by
      refine MMU.wordAt_eq_ok.mpr ⟨pa, hs.physOf, hsize, ?_⟩
      rw [show MMU.readType true = .EXEC from rfl, MMU.mark_of_settled hs]
    obtain ⟨c', hload, hco'⟩ := (@MMU.Coherent.load s.mmu s.mmu.instTLB_ true hco 4 va).2 _ hword
    rw [show MMU.readType true = .EXEC from rfl, MMU.mark_of_settled hs] at hload hco'
    have hcmd : (getCmd va).run s = .ok (s.mmu.readMem 4 (pa.toNat % 2 ^ 32))
        { s with mmu := (MMU.tlbOf .EXEC).set c' s.mmu } := by
      rw [getCmd, onMmu, run_zoom, show (MMU.load 4 va).run s.mmu = _ from hload]
    rw [fetchFrom, run_bind_of_ok hcmd, run_bind_of_ok (run_lift_eq_ok.mpr ⟨hd, rfl⟩)]
    by_cases hr : rest = []
    · subst hr
      rw [if_pos (show inst.isTerminator = true from ht)]
      exact ⟨_, rfl⟩
    · obtain ⟨hti, htr⟩ := (isTrace_cons hr).mp ht
      have hmap := hrest.follow h.virt (MMU.tlb_set_evolves .EXEC c' s.mmu).sameFetch fun b _ ↦ rfl
      have hlen : rest.length ≤ fuel := Nat.le_of_succ_le_succ hf
      obtain ⟨s', hrun⟩ : ∃ s', (fetchFrom fuel (va + 4)).run
          { s with mmu := (MMU.tlbOf .EXEC).set c' s.mmu } = .ok rest s' := ih hco' htr hmap hlen
      rw [if_neg (by rw [hti]; exact Bool.false_ne_true), run_bind_of_ok hrun]
      exact ⟨s', rfl⟩

/-- A TLB without room fetches nothing. -/
theorem fetch_coherent (hv : s.mmu.isVirtualAddressing = true) (h : s.mmu.Faithful)
    (hrun : (fetchFrom fuel va).run s = .ok insts s') : s.mmu.Coherent .EXEC := by
  rcases h with hblank | hco
  · refine MMU.coherent_of_blank hv hblank fun hsize ↦ ?_
    cases fuel with
    | zero => cases hrun
    | succ fuel =>
      obtain ⟨cmd, s₁, hcmd, -⟩ := run_bind_eq_ok.mp hrun
      have hphys := @MMU.physAddr_of_no_link s.mmu .EXEC va hv (hblank.links_eq_none va)
      have hroom : ((MMU.tlbOf .EXEC).get s.mmu).makeRoom = .error .undefinedBehaviour :=
        hblank.makeRoom_error hsize
      rw [hroom] at hphys
      have hload : (MMU.load 4 va).run s.mmu = .error .undefinedBehaviour s.mmu := by
        rw [MMU.load_eq]
        exact run_bind_of_error hphys
      rw [getCmd, onMmu, run_zoom, hload] at hcmd
      cases hcmd
  · exact hco

variable {host : Host}

theorem new_of_fetch (h : (fetchFrom host.fuel s.pc).run s = .ok insts s') :
    (new host).run s = .ok { trace_ := insts } s' := by
  have hpc : getPC.run s = .ok s.pc s := rfl
  rw [new, run_bind_of_ok hpc, run_bind_of_ok h]
  rfl

/-- At `va` the constructor builds this trace, with the TLBs as they are and through the page
table alone. -/
structure Rebuilds (host : Host) (s : State) (va : U32) (insts : List Inst) : Prop where
  cached : ∃ s', (new host).run { s with pc := va } = .ok { trace_ := insts } s'
  walked : ∃ s', (new host).run { s with pc := va, mmu := s.mmu.flush } = .ok { trace_ := insts } s'

theorem rebuilds_paged (h : s.mmu.Coherent .EXEC) (ht : IsTrace insts) (hm : s.mmu.MappedAt va insts)
    (hf : insts.length ≤ host.fuel) : Rebuilds host s va insts where
  cached := by
    obtain ⟨s', hrun⟩ := @fetchFrom_mapped { s with pc := va } host.fuel va insts h ht hm hf
    exact ⟨s', new_of_fetch (s := { s with pc := va }) hrun⟩
  walked := by
    have hm' := hm.follow h.virt s.mmu.flush_sameFetch fun _ _ ↦ rfl
    obtain ⟨s', hrun⟩ :=
      @fetchFrom_mapped { s with pc := va, mmu := s.mmu.flush } host.fuel va insts h.flush ht hm' hf
    exact ⟨s', new_of_fetch (s := { s with pc := va, mmu := s.mmu.flush }) hrun⟩

theorem rebuilds_bare (hv : s.mmu.isVirtualAddressing = false) (ht : IsTrace insts)
    (hc : s.mmu.CodeAt va insts) (hf : insts.length ≤ host.fuel) : Rebuilds host s va insts := by
  have hnew (m : MMU) (hm : m.isVirtualAddressing = false) (hcm : m.CodeAt va insts) :
      ∃ s', (new host).run { s with pc := va, mmu := m } = .ok { trace_ := insts } s' := by
    have hrun := new_bare (s := { s with mmu := m, pc := va }) hm host
    dsimp only at hrun
    rw [MMU.buildFrom_of_codeAt ht hcm hf] at hrun
    exact ⟨_, hrun⟩
  exact ⟨hnew s.mmu hv hc, hnew s.mmu.flush hv (hc.congr rfl fun _ _ _ _ _ ↦ rfl)⟩

end Trace

end RiscvSim
