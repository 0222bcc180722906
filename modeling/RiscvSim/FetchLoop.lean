import RiscvSim.Coherent
import RiscvSim.Rounds

namespace RiscvSim

open Isa Ir State Results

namespace MMU

def place (va : U32) (k : ℕ) : U32 := va + BitVec.ofNat 32 (4 * k)

/-- The memory once the first `k` addresses have been translated. -/
def walked (m : MMU) (va : U32) : ℕ → MMU
  | 0 => m
  | k + 1 => (m.walked va k).mark .EXEC (place va k)

def Passes (m : MMU) (a : U32) : Prop := ∃ w inst, m.wordAt .EXEC 4 a = .ok w ∧
  Decoder.decoder_.decode w = .ok inst ∧ inst.isTerminator = false

section

variable {m : MMU} {c : LRUCache U32 PhysAddr} {a : U32}

theorem Coherent.fetch (h : (instTLB.set c m).Coherent .EXEC) (a : U32) :
    (∀ e, m.wordAt .EXEC 4 a = .error e →
      ∃ m', (MMU.load 4 a true).run (instTLB.set c m) = .error e m') ∧
    ∀ w, m.wordAt .EXEC 4 a = .ok w → ∃ c',
      (MMU.load 4 a true).run (instTLB.set c m) = .ok w (instTLB.set c' (m.mark .EXEC a)) ∧
        (instTLB.set c' (m.mark .EXEC a)).Coherent .EXEC := h.load (r := true) 4 a

variable (m) (va : U32)

theorem walked_quiet (n k : ℕ) (hk : k < n) : (m.walked va n).Quiet .EXEC (place va k) := by
  induction n with
  | zero => omega
  | succ n ih =>
    rcases Nat.lt_succ_iff_lt_or_eq.mp hk with hlt | rfl
    · exact (ih hlt).evolve (mark_evolves .EXEC _ _)
    · exact quiet_mark .EXEC _ _

theorem place_mod (k : ℕ) : place va k = place va (k % 2 ^ 30) := by
  have hk : BitVec.ofNat 32 (4 * k) = BitVec.ofNat 32 (4 * (k % 2 ^ 30)) := by
    apply BitVec.eq_of_toNat_eq
    rw [BitVec.toNat_ofNat, BitVec.toNat_ofNat]
    omega
  rw [place, place, hk]

/-- One turn through the address space marks all there is to mark. -/
theorem walked_period (k : ℕ) : m.walked va (2 ^ 30 + k) = m.walked va (2 ^ 30) := by
  induction k with
  | zero => rfl
  | succ k ih =>
    change (m.walked va (2 ^ 30 + k)).mark .EXEC (place va (2 ^ 30 + k)) = _
    rw [ih, place_mod]
    exact (walked_quiet m va _ _ (Nat.mod_lt _ (by decide))).mark_eq

/-- Two turns tell all. -/
theorem passes_forever (h : ∀ k < 2 ^ 31, (m.walked va k).Passes (place va k)) (k : ℕ) :
    (m.walked va k).Passes (place va k) := by
  rcases Nat.lt_or_ge k (2 ^ 30) with hk | hk
  · exact h k (by omega)
  · obtain ⟨j, rfl⟩ := Nat.exists_eq_add_of_le hk
    have hlt : j % 2 ^ 30 < 2 ^ 30 := Nat.mod_lt _ (by decide)
    have hturn := h (2 ^ 30 + j % 2 ^ 30) (by omega)
    rw [walked_period, place_mod] at hturn ⊢
    simpa using hturn

theorem walked_succ (k : ℕ) : m.walked va (k + 1) = (m.mark .EXEC va).walked (va + 4) k := by
  induction k with
  | zero =>
    rw [walked, walked, walked, place, Nat.mul_zero, BitVec.add_zero]
  | succ k ih =>
    rw [walked, ih, walked, place, place, word_succ]

end

end MMU

namespace Trace

/-- The loop of the constructor ends, with a trace or with an exception. -/
def FetchEnds (s : State) (va : U32) : Prop := ∃ fuel,
  (∃ insts t, (fetchFrom fuel va).run s = .ok insts t ∧ IsTrace insts) ∨
    ∃ e t, (fetchFrom fuel va).run s = .error e t ∧ e.IsException

section

variable {s t : State} {va w : U32}

theorem fetchFrom_succ {inst : Inst} (hw : (getCmd va).run s = .ok w t)
    (hd : Decoder.decoder_.decode w = .ok inst) (fuel : ℕ) : (fetchFrom (fuel + 1) va).run s =
      (if inst.isTerminator then pure [inst]
        else do return inst :: (← fetchFrom fuel (va + 4)) : Run (List Inst)).run t := by
  rw [fetchFrom, run_bind_of_ok hw, hd, run_bind_of_ok (run_lift_ok inst t)]

theorem fetchEnds_of_error {e : Stop} (hw : (getCmd va).run s = .error e t) (he : e.IsException) :
    FetchEnds s va := by
  refine ⟨1, .inr ⟨e, t, ?_, he⟩⟩
  rw [fetchFrom, run_bind_of_error hw]

theorem FetchEnds.cons (hw : (getCmd va).run s = .ok w t)
    (h : ∀ inst, Decoder.decoder_.decode w = .ok inst → inst.isTerminator = false →
      FetchEnds t (va + 4)) : FetchEnds s va := by
  cases hd : Decoder.decoder_.decode w with
  | error e =>
    refine ⟨1, .inr ⟨e, t, ?_, Decoder.decode_defined w e hd⟩⟩
    rw [fetchFrom, run_bind_of_ok hw, hd, run_bind_of_error (run_lift_error e t)]
  | ok inst =>
    cases hterm : inst.isTerminator with
    | true =>
      refine ⟨1, .inl ⟨[inst], t, ?_, hterm⟩⟩
      rw [fetchFrom_succ hw hd, if_pos hterm]
      rfl
    | false =>
      obtain ⟨fuel, hend⟩ := h inst hd hterm
      have hrun := fetchFrom_succ hw hd fuel
      rw [if_neg (by rw [hterm]; exact Bool.false_ne_true)] at hrun
      refine ⟨fuel + 1, ?_⟩
      rcases hend with ⟨insts, u, hr, htr⟩ | ⟨e, u, hr, he⟩
      · rw [run_bind_of_ok hr] at hrun
        exact .inl ⟨_, u, hrun, (isTrace_cons htr.ne_nil).mpr ⟨hterm, htr⟩⟩
      · rw [run_bind_of_error hr] at hrun
        exact .inr ⟨e, u, hrun, he⟩

theorem fetchEnds_bare (hv : s.mmu.isVirtualAddressing = false) (hsize : s.mmu.pmem_size_ ≤ 2 ^ 32)
    (va : U32) : FetchEnds s va := by
  induction hn : 2 ^ 32 - va.toNat using Nat.strong_induction_on generalizing va with
  | _ n ih =>
    have hcmd := getCmd_bare hv va
    cases hp : s.mmu.getMemPtr 4 (va.setWidth 64) with
    | error e =>
      rw [hp] at hcmd
      exact fetchEnds_of_error hcmd (MMU.getMemPtr_error hp)
    | ok ptr =>
      rw [hp] at hcmd
      rw [MMU.getMemPtr_setWidth] at hp
      split at hp
      · cases hp
      · refine .cons hcmd fun inst _ _ ↦ ih _ ?_ (va + 4) rfl
        have hnext : (va + 4).toNat = va.toNat + 4 := by
          rw [BitVec.toNat_add, show (4 : U32).toNat = 4 from rfl]
          omega
        omega

variable {m : MMU} {c : LRUCache U32 PhysAddr}

theorem getCmd_ok {m' : MMU} (hs : s.mmu = m) (h : (MMU.load 4 va true).run m = .ok w m') :
    (getCmd va).run s = .ok w { s with mmu := m' } := by
  rw [getCmd, onMmu, run_zoom, hs, h]

theorem getCmd_error {e : Stop} {m' : MMU} (hs : s.mmu = m)
    (h : (MMU.load 4 va true).run m = .error e m') :
    (getCmd va).run s = .error e { s with mmu := m' } := by
  rw [getCmd, onMmu, run_zoom, hs, h]

theorem fetchEnds_of_not_passes {k : ℕ} (h : (MMU.instTLB.set c m).Coherent .EXEC)
    (hs : s.mmu = MMU.instTLB.set c m) (hk : ¬ (m.walked va k).Passes (MMU.place va k)) :
    FetchEnds s va := by
  induction k generalizing s m c va with
  | zero =>
    obtain ⟨herr, hok⟩ := h.fetch va
    cases hw : m.wordAt .EXEC 4 va with
    | error e =>
      obtain ⟨m', hr⟩ := herr e hw
      exact fetchEnds_of_error (getCmd_error hs hr) (MMU.wordAt_error hw)
    | ok w =>
      obtain ⟨c', hr, -⟩ := hok w hw
      refine .cons (getCmd_ok hs hr) fun inst hd hterm ↦ absurd ?_ hk
      rw [MMU.place, Nat.mul_zero, BitVec.add_zero]
      exact ⟨w, inst, hw, hd, hterm⟩
  | succ k ih =>
    obtain ⟨herr, hok⟩ := h.fetch va
    cases hw : m.wordAt .EXEC 4 va with
    | error e =>
      obtain ⟨m', hr⟩ := herr e hw
      exact fetchEnds_of_error (getCmd_error hs hr) (MMU.wordAt_error hw)
    | ok w =>
      obtain ⟨c', hr, h'⟩ := hok w hw
      refine .cons (getCmd_ok hs hr) fun inst _ _ ↦ ih h' rfl ?_
      rw [MMU.walked_succ] at hk
      rwa [MMU.place, ← MMU.word_succ]

/-- Where every address passes the loop takes whatever fuel it is given. -/
theorem fetchFrom_of_passes (h : (MMU.instTLB.set c m).Coherent .EXEC) (hs : s.mmu = MMU.instTLB.set c m)
    (hk : ∀ k, (m.walked va k).Passes (MMU.place va k)) (fuel : ℕ) :
    ∃ t, (fetchFrom fuel va).run s = .error .outOfFuel t := by
  induction fuel generalizing s m c va with
  | zero => exact ⟨s, rfl⟩
  | succ fuel ih =>
    obtain ⟨w, inst, hw, hd, hterm⟩ := hk 0
    rw [MMU.place, Nat.mul_zero, BitVec.add_zero] at hw
    obtain ⟨c', hr, h'⟩ := (h.fetch va).2 w hw
    have hnext : ∀ k, ((m.mark .EXEC va).walked (va + 4) k).Passes (MMU.place (va + 4) k) := by
      intro k
      have hstep := hk (k + 1)
      rwa [MMU.walked_succ, MMU.place, MMU.word_succ] at hstep
    obtain ⟨t, hrest⟩ := ih (s := { s with mmu := MMU.instTLB.set c' (m.mark .EXEC va) }) h' rfl hnext
    refine ⟨t, ?_⟩
    rw [fetchFrom_succ (getCmd_ok hs hr) hd, if_neg (by rw [hterm]; exact Bool.false_ne_true),
      run_bind_of_error hrest]

theorem not_fetchEnds (h : s.mmu.Coherent .EXEC) (hk : ∀ k, (s.mmu.walked va k).Passes (MMU.place va k)) :
    ¬ FetchEnds s va := by
  rintro ⟨fuel, hend⟩
  obtain ⟨t, hrun⟩ := fetchFrom_of_passes (m := s.mmu) (c := s.mmu.instTLB_) h rfl hk fuel
  rw [hrun] at hend
  rcases hend with ⟨insts, u, hr, -⟩ | ⟨e, u, hr, he⟩
  · cases hr
  · cases hr
    exact he.ne_outOfFuel rfl

/-- The loop ends in bare mode, and in paged mode exactly when one of the addresses of two turns
through the address space has no word, or one that is no instruction or is a terminator. -/
theorem fetchEnds_iff (s : State) (va : U32) (hsize : s.mmu.pmem_size_ ≤ 2 ^ 32)
    (hc : s.mmu.isVirtualAddressing = true → s.mmu.Coherent .EXEC) : FetchEnds s va ↔
      (s.mmu.isVirtualAddressing = true →
        ∃ k < 2 ^ 31, ¬ (s.mmu.walked va k).Passes (MMU.place va k)) := by
  cases hv : s.mmu.isVirtualAddressing with
  | false =>
    refine iff_of_true (fetchEnds_bare hv hsize va) ?_
    intro h
    cases h
  | true =>
    constructor
    · intro hend _
      by_contra hall
      push Not at hall
      exact not_fetchEnds (hc hv) (MMU.passes_forever _ _ hall) hend
    · intro h
      obtain ⟨k, -, hk⟩ := h rfl
      exact fetchEnds_of_not_passes (hc hv) rfl hk

end

end Trace

namespace MMU

/-- Below 4 MiB every word is `addi x0, x0, 0`; the table at 4 MiB maps every megapage there. -/
def sled : MMU where
  instTLB_ := .new 1
  dataTLB_ := .new 1
  pmem_size_ := 0x402000
  pmem_ p := if p % 4 = 0 then if p < 0x400000 then 0x13#8 else 0x4f#8 else 0#8
  satp := 0x80000400#32

theorem sled_word {p : ℕ} (hp : p % 4 = 0) :
    sled.readMem 4 p = if p < 0x400000 then 0x13#32 else 0x4f#32 := by
  have hfirst : sled.pmem_ p = if p < 0x400000 then 0x13#8 else 0x4f#8 := if_pos hp
  have hrest : ∀ i < 3, sled.pmem_ (p + 1 + i) = 0#8 := fun i hi ↦ if_neg (by omega)
  have hzero : Bytes.read sled.pmem_ (p + 1) 3 = 0#24 := by
    apply Bytes.eq_of_byte
    intro i hi
    rw [Bytes.byte_read _ _ hi, hrest i hi]
    simp [Bytes.byte]
  change Bytes.read sled.pmem_ (p + 1) 3 ++ sled.pmem_ p = _
  rw [hzero, hfirst]
  split <;> rfl

theorem sled_leaf (a : U32) : ∃ ptr, sled.leafOf a .EXEC = .ok (ptr, 1) ∧ sled.pteAt ptr = 0x4f#32 := by
  have hlt : Sv32.vpn a 1 < 2 ^ 10 := Nat.mod_lt _ (by decide)
  have hroot : sled.rootPpn = 0x400 := by decide
  have hptr := getMemPtr_entry sled a (le_refl 1) (toNat_rootTable sled)
  have hin : (0x400 * 4096 + 4 * Sv32.vpn a 1) % 2 ^ 32 = 0x400000 + 4 * Sv32.vpn a 1 := by omega
  dsimp only at hptr
  rw [hroot, hin, show sled.pmem_size_ = 0x402000 from rfl, if_neg (by omega)] at hptr
  have hpte : sled.pteAt (0x400000 + 4 * Sv32.vpn a 1) = 0x4f#32 := by
    rw [pteAt, sled_word (by omega), if_neg (by omega)]
  refine ⟨_, leafOf_eq_ok.mpr ⟨?_, ?_, ?_⟩, hpte⟩
  · rw [walk_eq, hptr]
    change (if (⟨sled.pteAt (0x400000 + 4 * Sv32.vpn a 1)⟩ : Sv32.Pte).valid = false then _ else
      if (⟨sled.pteAt (0x400000 + 4 * Sv32.vpn a 1)⟩ : Sv32.Pte).leaf = true then _ else _) = _
    rw [hpte]
    rfl
  · rw [hpte]
    decide
  · rw [hpte]
    decide

theorem sled_mark (a : U32) : sled.mark .EXEC a = sled := by
  obtain ⟨ptr, hl, hpte⟩ := sled_leaf a
  have ht : touch .EXEC (sled.pteAt ptr) = sled.pteAt ptr := by
    rw [hpte]
    decide
  exact mark_of_settled ⟨ptr, 1, hl, ht, rfl⟩

theorem sled_passes {a : U32} (ha : a.toNat % 4 = 0) : sled.Passes a := by
  obtain ⟨ptr, hl, hpte⟩ := sled_leaf a
  have haddr := leafAddr_one a 0x4f#32
  have hlow : (leafAddr a 0x4f#32 1).toNat % 2 ^ 32 = a.toNat % 2 ^ 22 := by
    rw [haddr, show (0x4f#32 : U32).toNat = 0x4f from rfl]
    omega
  have hword : sled.wordAt .EXEC 4 a = .ok 0x13#32 := by
    refine wordAt_eq_ok.mpr ⟨_, physOf_eq_ok.mpr ⟨ptr, 1, hl, rfl⟩, ?_, ?_⟩
    · rw [hpte, hlow, show sled.pmem_size_ = 0x402000 from rfl]
      omega
    · rw [hpte, hlow, sled_mark, sled_word (by omega), if_pos (by omega)]
  have haddi : Selects 0x13#32 ⟨.ADDI, by decide⟩ := by
    refine ⟨?_, ?_, fun _ _ ↦ ?_, ?_, trivial⟩
    · decide
    · decide
    · decide
    · intro h
      cases h
  exact ⟨0x13#32, ⟨0, 0, 0, 0, .ADDI, by decide⟩, hword,
    (Decoder.decode_ok_iff _ _).mpr ⟨haddi, by decide⟩, rfl⟩

theorem sled_walked (va : U32) (k : ℕ) : sled.walked va k = sled := by
  induction k with
  | zero => rfl
  | succ k ih => rw [walked, ih, sled_mark]

theorem sled_coherent : sled.Coherent .EXEC where
  virt := by decide
  usable := LRUCache.new_usable (by decide)
  settled va pa hm := by
    obtain ⟨e, he, -⟩ := hm
    cases he

end MMU

namespace Trace

def sledding : State := { onePage (fun _ ↦ 0) (.new 1) with mmu := .sled }

theorem sledding_passes (k : ℕ) : (sledding.mmu.walked 0#32 k).Passes (MMU.place 0#32 k) := by
  change (MMU.sled.walked 0#32 k).Passes _
  rw [MMU.sled_walked]
  apply MMU.sled_passes
  rw [MMU.place, BitVec.zero_add, BitVec.toNat_ofNat]
  omega

/-- With virtual addressing off memory ends, the sled does not. -/
theorem fetchEnds_iff_sledding : FetchEnds (onePage (fun _ ↦ 0) (.new 1)) 0#32 ∧
    ¬ FetchEnds sledding 0#32 := by
  have hbare : (onePage (fun _ ↦ 0) (.new 1)).mmu.isVirtualAddressing = false := by decide
  refine ⟨(fetchEnds_iff (onePage (fun _ ↦ 0) (.new 1)) 0#32 (by decide) fun hv ↦ ?_).mpr fun hv ↦ ?_, fun h ↦ ?_⟩
  · rw [hbare] at hv
    cases hv
  · rw [hbare] at hv
    cases hv
  · obtain ⟨k, -, hk⟩ := (fetchEnds_iff sledding 0#32 (by decide) fun _ ↦ MMU.sled_coherent).mp h (by decide)
    exact hk (sledding_passes k)

/-- The sled never ends. -/
theorem sled_fetches_forever : ¬ ∀ (s : State) (va : U32), s.mmu.pmem_size_ ≤ 2 ^ 32 →
    (s.mmu.isVirtualAddressing = true → s.mmu.Coherent .EXEC) → FetchEnds s va := by
  intro h
  exact not_fetchEnds MMU.sled_coherent sledding_passes (h sledding 0#32 (by decide) fun _ ↦ MMU.sled_coherent)

end Trace

end RiscvSim
