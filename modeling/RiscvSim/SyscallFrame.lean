import RiscvSim.Bare

namespace RiscvSim.Syscall

open Ir Reg State Results

/-- Every register but a0 and every byte outside of `P` is as before. -/
structure Within (P : ℕ → Prop) (s s' : State) : Prop where
  regs : ∀ reg, reg ≠ a0 → s'.regs.get reg = s.regs.get reg
  memory : ∀ b, ¬ P b → s'.mmu.pmem_ b = s.mmu.pmem_ b

/-- The bytes that a call is told to write, `s'` being the state it returns in. -/
def Told (value : U32) (s s' : State) (b : ℕ) : Prop :=
  (value = 63#32 ∧ ∃ i < (s'.regs.get a0).toNat, b = (s.regs.get a1 + BitVec.ofNat 32 i).toNat) ∨
    value = 169#32 ∧
      ((s.regs.get a0 ≠ 0#32 ∧ (s.regs.get a0).toNat ≤ b ∧ b < (s.regs.get a0).toNat + 16) ∨
        s.regs.get a1 ≠ 0#32 ∧ (s.regs.get a1).toNat ≤ b ∧ b < (s.regs.get a1).toNat + 8)

/-- A call that has returned changed a0 and what it was told to write; a `read` stored its input. -/
structure WritesWhereTold (value : U32) (s s' : State) : Prop where
  within : Within (Told value s s') s s'
  input : value = 63#32 → ∀ i < (s'.regs.get a0).toNat,
    s.world.stdin[i]? = some (s'.mmu.pmem_ (s.regs.get a1 + BitVec.ofNat 32 i).toNat)

theorem Within.mono {P Q : ℕ → Prop} {s s' : State} (h : Within P s s') (hPQ : ∀ b, P b → Q b) :
    Within Q s s' :=
  ⟨h.regs, fun b hb ↦ h.memory b fun hP ↦ hb (hPQ b hP)⟩

theorem within_setReg (P : ℕ → Prop) (val : U32) (s : State) :
    Within P s { s with regs := s.regs.set a0 val } :=
  ⟨fun _ hreg ↦ s.regs.get_set_of_ne hreg val, fun _ _ ↦ rfl⟩

section

variable {s s' : State} (hv : s.mmu.isVirtualAddressing = false)

include hv

theorem write_bare_eq_ok {n : ℕ} {va : U32} {data : BitVec (8 * n)} {u : Unit} :
    (State.write va data).run s = .ok u s' ↔
      va.toNat + n < s.mmu.pmem_size_ ∧ s' = { s with mmu := s.mmu.writeMem va.toNat data } := by
  rw [write_bare hv, MMU.getMemPtr_setWidth]
  by_cases hle : s.mmu.pmem_size_ ≤ va.toNat + n
  · rw [if_pos hle]
    exact iff_of_false nofun fun h ↦ absurd h.1 (not_lt.mpr hle)
  · rw [if_neg hle]
    constructor
    · intro h
      cases h
      exact ⟨not_le.mp hle, rfl⟩
    · rintro ⟨-, rfl⟩
      rfl

theorem read_bare_eq_ok {n : ℕ} {va : U32} {data : BitVec (8 * n)}
    (h : (State.read n va).run s = .ok data s') : s' = s := by
  rw [read_bare hv] at h
  cases hptr : s.mmu.getMemPtr n (va.setWidth 64) with
  | ok ptr =>
    rw [hptr] at h
    cases h
    rfl
  | error e =>
    rw [hptr] at h
    cases h

end

theorem writeByte_self (mem : ℕ → U8) (a : ℕ) (c : BitVec (8 * 1)) : Bytes.write mem a c a = c := by
  rw [Bytes.write, if_pos ⟨le_rfl, Nat.lt_succ_self a⟩, Nat.sub_self, Bytes.byte]
  exact BitVec.extractLsb'_eq_self

theorem add_ofNat_ne {addr : U32} {i j : ℕ} (hij : i < j) (hj : j < 2 ^ 32) :
    (addr + BitVec.ofNat 32 i).toNat ≠ (addr + BitVec.ofNat 32 j).toNat := by
  intro h
  have hoff : BitVec.ofNat 32 i = BitVec.ofNat 32 j := by
    have := BitVec.eq_of_toNat_eq h
    simpa using this
  have hnat := congrArg BitVec.toNat hoff
  rw [BitVec.toNat_ofNat, BitVec.toNat_ofNat, Nat.mod_eq_of_lt (hij.trans hj), Nat.mod_eq_of_lt hj] at hnat
  exact absurd hnat hij.ne

theorem readLoop_ok (addr len : U32) (n : ℕ) : ∀ {i : ℕ} {s s' : State}, i + n = len.toNat →
    s.mmu.isVirtualAddressing = false → (readLoop addr len i n).run s = .ok () s' →
    ∃ k, i + k ≤ len.toNat ∧ s'.regs.get a0 = BitVec.ofNat 32 (i + k) ∧
      Within (fun b ↦ ∃ j < k, b = (addr + BitVec.ofNat 32 (i + j)).toNat) s s' ∧
      ∀ j < k, s.world.stdin[j]? = some (s'.mmu.pmem_ (addr + BitVec.ofNat 32 (i + j)).toNat) := by
  induction n with
  | zero =>
    intro i s s' hn hv hrun
    cases hrun
    refine ⟨0, hn.le, ?_, within_setReg _ len s, nofun⟩
    rw [hn, BitVec.ofNat_toNat, BitVec.setWidth_eq]
    exact s.regs.get_set_self (show a0 ≠ 0 by decide) len
  | succ n ih =>
    intro i s s' hn hv hrun
    have hlen := len.isLt
    rw [readLoop, EStateM.run_bind] at hrun
    cases hin : s.world.stdin with
    | nil =>
      have hget : fgetc.run s = .ok none s := by
        rw [fgetc, run_bind_of_ok (EStateM.run_get s), hin]
        rfl
      rw [hget] at hrun
      cases hrun
      refine ⟨0, by omega, s.regs.get_set_self (show a0 ≠ 0 by decide) _, within_setReg _ _ s, nofun⟩
    | cons c rest =>
      have hget : fgetc.run s = .ok (some c) { s with world := { s.world with stdin := rest } } := by
        rw [fgetc, run_bind_of_ok (EStateM.run_get s), hin]
        rfl
      rw [hget] at hrun
      obtain ⟨u, s₁, hwrite, hrest⟩ := run_bind_eq_ok.mp hrun
      obtain ⟨-, rfl⟩ := (write_bare_eq_ok (by exact hv)).mp hwrite
      obtain ⟨k, hk, ha0, hwithin, hinput⟩ := ih (i := i + 1) (by omega) (by exact hv) hrest
      have hnot : ¬ ∃ j < k, (addr + BitVec.ofNat 32 i).toNat = (addr + BitVec.ofNat 32 (i + 1 + j)).toNat := by
        rintro ⟨j, hj, heq⟩
        exact add_ofNat_ne (by omega) (by omega) heq
      refine ⟨k + 1, by omega, by rw [ha0, Nat.add_right_comm, Nat.add_assoc], ?_, ?_⟩
      · refine ⟨hwithin.regs, fun b hb ↦ ?_⟩
        have hbeside : ¬ ∃ j < k, b = (addr + BitVec.ofNat 32 (i + 1 + j)).toNat := by
          rintro ⟨j, hj, rfl⟩
          exact hb ⟨j + 1, Nat.succ_lt_succ hj, by rw [Nat.add_right_comm, Nat.add_assoc]⟩
        rw [hwithin.memory b hbeside]
        have hne : b ≠ (addr + BitVec.ofNat 32 i).toNat := fun heq ↦ hb ⟨0, Nat.succ_pos k, heq⟩
        exact if_neg (by omega)
      · intro j hj
        cases j with
        | zero =>
          rw [Nat.add_zero, hwithin.memory _ hnot]
          exact congrArg some (writeByte_self s.mmu.pmem_ _ c).symm
        | succ j =>
          have h := hinput j (Nat.lt_of_succ_lt_succ hj)
          rw [Nat.add_right_comm, Nat.add_assoc] at h
          exact h

def answered (s : State) : State :=
  { s with
    world := { s.world with asked := s.world.asked + 1 }
    regs := s.regs.set a0 (s.world.clock s.world.asked).result }

theorem writeLoop_ok {addr : U32} (n : ℕ) : ∀ {i : ℕ} {s s' : State},
    s.mmu.isVirtualAddressing = false → (writeLoop addr i n).run s = .ok () s' →
    s'.regs = s.regs ∧ s'.mmu = s.mmu := by
  induction n with
  | zero =>
    intro i s s' hv hrun
    cases hrun
    exact ⟨rfl, rfl⟩
  | succ n ih =>
    intro i s s' hv hrun
    obtain ⟨c, s₁, hread, hrest⟩ := run_bind_eq_ok.mp hrun
    obtain rfl := read_bare_eq_ok hv hread
    obtain ⟨u, s₂, hput, hrest⟩ := run_bind_eq_ok.mp hrest
    have hs₂ : s₂.regs = s₁.regs ∧ s₂.mmu = s₁.mmu := by
      cases hput
      exact ⟨rfl, rfl⟩
    obtain ⟨hregs, hmmu⟩ := ih (by rw [hs₂.2]; exact hv) hrest
    exact ⟨hregs.trans hs₂.1, hmmu.trans hs₂.2⟩

section

variable {s s' : State} (hv : s.mmu.isVirtualAddressing = false)

include hv

theorem execGetTimeOfDay_eq_ok : execGetTimeOfDay.run s = .ok () s' ↔
    (s.regs.get a0).toNat + 16 < s.mmu.pmem_size_ ∧ (s.regs.get a1).toNat + 8 < s.mmu.pmem_size_ ∧
      s' = { answered s with
        mmu := (s.mmu.writeMem (s.regs.get a0).toNat (s.world.clock s.world.asked).tv).writeMem
          (s.regs.get a1).toNat (s.world.clock s.world.asked).tz } := by
  have hrun : execGetTimeOfDay.run s = (State.write (s.regs.get a0) (s.world.clock s.world.asked).tv >>=
      fun _ ↦ State.write (s.regs.get a1) (s.world.clock s.world.asked).tz).run (answered s) := rfl
  rw [hrun]
  constructor
  · intro h
    obtain ⟨u, s₁, htv, htz⟩ := run_bind_eq_ok.mp h
    obtain ⟨h0, rfl⟩ := (write_bare_eq_ok (s := answered s) hv).mp htv
    obtain ⟨h1, rfl⟩ := (write_bare_eq_ok (by exact hv)).mp htz
    exact ⟨h0, h1, rfl⟩
  · rintro ⟨h0, h1, rfl⟩
    have htv := (write_bare_eq_ok (s := answered s) (u := ()) hv).mpr
      ⟨h0, (rfl : _ = { answered s with
        mmu := (answered s).mmu.writeMem (s.regs.get a0).toNat (s.world.clock s.world.asked).tv })⟩
    rw [run_bind_of_ok htv]
    exact (write_bare_eq_ok (by exact hv)).mpr ⟨h1, rfl⟩

theorem execRead_writesWhereTold (h : execRead.run s = .ok () s') : WritesWhereTold 63#32 s s' := by
  obtain ⟨k, hk, ha0, hwithin, hinput⟩ := readLoop_ok (s.regs.get a1) (s.regs.get a2)
    (s.regs.get a2).toNat (Nat.zero_add _) hv h
  rw [Nat.zero_add] at hk ha0
  have hcount : (s'.regs.get a0).toNat = k := by
    rw [ha0, BitVec.toNat_ofNat, Nat.mod_eq_of_lt (hk.trans_lt (s.regs.get a2).isLt)]
  simp only [Nat.zero_add] at hwithin hinput
  refine ⟨hwithin.mono ?_, ?_⟩
  · rintro b ⟨j, hj, hb⟩
    exact .inl ⟨rfl, j, hcount ▸ hj, hb⟩
  · intro _ i hi
    exact hinput i (hcount ▸ hi)

omit hv in
theorem writesWhereTold_of_ne {value : U32} (hne : value ≠ 63#32) (h : Within (fun _ ↦ False) s s') :
    WritesWhereTold value s s' :=
  ⟨h.mono fun _ ↦ False.elim, fun heq ↦ absurd heq hne⟩

theorem execSysCall_writesWhereTold {value : U32} (hne : value ≠ 169#32)
    (h : (execSysCall value).run s = .ok () s') : WritesWhereTold value s s' := by
  have hof : ∀ {n : ℕ}, value.toNat = n → value = BitVec.ofNat 32 n := by
    rintro n rfl
    rw [BitVec.ofNat_toNat, BitVec.setWidth_eq]
  unfold execSysCall at h
  split at h
  · next hval =>
    cases h
    exact writesWhereTold_of_ne (by rw [hof hval]; decide) (within_setReg _ _ s)
  · next hval =>
    obtain rfl := hof hval
    exact execRead_writesWhereTold hv h
  · next hval =>
    obtain ⟨u, s₁, hloop, hset⟩ := run_bind_eq_ok.mp (show (writeLoop (s.regs.get a1) 0
      (s.regs.get a2).toNat >>= fun _ ↦ setReg a0 (s.regs.get a2)).run s = _ from h)
    obtain ⟨hregs, hmmu⟩ := writeLoop_ok _ hv hloop
    cases hset
    refine writesWhereTold_of_ne (by rw [hof hval]; decide) ⟨fun reg hreg ↦ ?_, fun b _ ↦ ?_⟩
    · rw [← hregs]
      exact s₁.regs.get_set_of_ne hreg _
    · rw [← hmmu]
  · next hval =>
    cases h
    exact writesWhereTold_of_ne (by rw [hof hval]; decide) (within_setReg _ _ s)
  · cases h
  · next hval => exact absurd (hof hval) hne
  · next hval =>
    cases h
    exact writesWhereTold_of_ne (by rw [hof hval]; decide) (within_setReg _ _ s)
  · next h57 h63 h64 h80 h93 h169 h214 =>
    cases h
    refine writesWhereTold_of_ne (fun heq ↦ h63 ?_) ⟨fun _ _ ↦ rfl, fun _ _ ↦ rfl⟩
    rw [heq]
    rfl

end

def onClock (clock : ℕ → Clock) (s : State) : State := { s with world := { s.world with clock := clock } }

def Obeys (value : U32) (s : State) : Prop :=
  ∀ clock s', (execSysCall value).run (onClock clock s) = .ok () s' →
    WritesWhereTold value (onClock clock s) s'

def startsWith (c : U8) : Clock := ⟨0#32, c.setWidth (8 * 16), c.setWidth (8 * 8)⟩

/-- Without null pointers the structs are what `gettimeofday` is told to write. -/
theorem execGetTimeOfDay_writesWhereTold {s s' : State} (hv : s.mmu.isVirtualAddressing = false)
    (h0 : s.regs.get a0 ≠ 0#32) (h1 : s.regs.get a1 ≠ 0#32) (h : execGetTimeOfDay.run s = .ok () s') :
    WritesWhereTold 169#32 s s' := by
  obtain ⟨-, -, rfl⟩ := (execGetTimeOfDay_eq_ok hv).mp h
  refine ⟨⟨fun reg hreg ↦ s.regs.get_set_of_ne hreg _, fun b hb ↦ ?_⟩, nofun⟩
  have htv : ¬ ((s.regs.get a0).toNat ≤ b ∧ b < (s.regs.get a0).toNat + 16) := fun hin ↦
    hb (.inr ⟨rfl, .inl ⟨h0, hin⟩⟩)
  have htz : ¬ ((s.regs.get a1).toNat ≤ b ∧ b < (s.regs.get a1).toNat + 8) := fun hin ↦
    hb (.inr ⟨rfl, .inr ⟨h1, hin⟩⟩)
  exact (if_neg htz).trans (if_neg htv)

theorem not_told_zero {s s' : State} : ¬ Told 169#32 s s' 0 := by
  have hpos : ∀ v : U32, v ≠ 0#32 → ¬ v.toNat ≤ 0 := fun v hv hle ↦
    hv (BitVec.eq_of_toNat_eq (Nat.le_zero.mp hle))
  rintro (⟨hval, -⟩ | ⟨-, ⟨hne, hle, -⟩ | ⟨hne, hle, -⟩⟩)
  · cases hval
  · exact hpos _ hne hle
  · exact hpos _ hne hle

theorem execGetTimeOfDay_null {s s' : State} (hv : s.mmu.isVirtualAddressing = false) {c : U8}
    (hclock : s.world.clock s.world.asked = startsWith c) (h : execGetTimeOfDay.run s = .ok () s')
    (hnull : ¬ (s.regs.get a0 ≠ 0#32 ∧ s.regs.get a1 ≠ 0#32)) : s'.mmu.pmem_ 0 = c := by
  obtain ⟨-, -, rfl⟩ := (execGetTimeOfDay_eq_ok hv).mp h
  rw [hclock]
  have hbyte : ∀ n, 1 ≤ n → ∀ (mem : ℕ → U8), Bytes.write (n := n) mem 0 (c.setWidth (8 * n)) 0 = c := by
    intro n hn mem
    rw [Bytes.write, if_pos ⟨le_rfl, by omega⟩, Bytes.byte]
    rw [Nat.mul_zero, BitVec.extractLsb'_setWidth_of_le (by omega)]
    exact BitVec.extractLsb'_eq_self
  change Bytes.write (Bytes.write s.mmu.pmem_ (s.regs.get a0).toNat _) (s.regs.get a1).toNat _ 0 = c
  by_cases h1 : s.regs.get a1 = 0#32
  · rw [h1]
    exact hbyte 8 (by decide) _
  · have h0 : s.regs.get a0 = 0#32 := by
      by_contra h0
      exact hnull ⟨h0, h1⟩
    have hpos : 0 < (s.regs.get a1).toNat := by
      refine Nat.pos_of_ne_zero fun hz ↦ h1 (BitVec.eq_of_toNat_eq hz)
    rw [Bytes.write_of_lt _ _ hpos, h0]
    exact hbyte 16 (by decide) _

/-- System calls write only where they were told to just when `gettimeofday`, if it is asked for and
its structs fit, has no null pointer to write to. -/
theorem writesWhereTold_iff (value : U32) {s : State} (hv : s.mmu.isVirtualAddressing = false) :
    Obeys value s ↔ (value = 169#32 → (s.regs.get a0).toNat + 16 < s.mmu.pmem_size_ →
      (s.regs.get a1).toNat + 8 < s.mmu.pmem_size_ → s.regs.get a0 ≠ 0#32 ∧ s.regs.get a1 ≠ 0#32) := by
  constructor
  · rintro hobeys rfl h0 h1
    by_contra hnull
    let s₁ := onClock (fun _ ↦ startsWith (s.mmu.pmem_ 0 + 1#8)) s
    have hrun := (execGetTimeOfDay_eq_ok (s := s₁) hv).mpr ⟨h0, h1, rfl⟩
    have hbyte := execGetTimeOfDay_null (s := s₁) hv rfl hrun hnull
    rw [(hobeys _ _ hrun).within.memory 0 not_told_zero] at hbyte
    have hadd : s.mmu.pmem_ 0 = s.mmu.pmem_ 0 + 1#8 := hbyte
    bv_omega
  · intro h clock s' hrun
    by_cases hval : value = 169#32
    · subst hval
      obtain ⟨h0, h1, -⟩ := (execGetTimeOfDay_eq_ok (s := onClock clock s) hv).mp hrun
      obtain ⟨hne0, hne1⟩ := h rfl h0 h1
      exact execGetTimeOfDay_writesWhereTold (s := onClock clock s) hv hne0 hne1 hrun
    · exact execSysCall_writesWhereTold (s := onClock clock s) hv hval hrun

/-- A call of `gettimeofday` with the timezone object at `tz`, before a clock that answers ones. -/
def asking (tz : U32) : State :=
  let s := onePage (fun _ ↦ 0) (.new 1)
  { s with
    regs := (s.regs.set a0 64#32).set a1 tz
    world := { s.world with clock := fun _ ↦ startsWith 1 } }

theorem writesWhereTold_iff_asking : Obeys 169#32 (asking 32#32) :=
  (writesWhereTold_iff _ rfl).mpr fun _ _ _ ↦ by decide

/-- Without a timezone object the call writes to address 0. -/
theorem nullTimezone_writes : ¬ ∀ value (s s' : State), s.mmu.isVirtualAddressing = false →
    (execSysCall value).run s = .ok () s' → WritesWhereTold value s s' := by
  intro h
  have hrun := (execGetTimeOfDay_eq_ok (s := asking 0#32) rfl).mpr ⟨by decide, by decide, rfl⟩
  have hbyte := execGetTimeOfDay_null (s := asking 0#32) rfl rfl hrun (by decide)
  rw [(h 169#32 _ _ rfl hrun).within.memory 0 not_told_zero] at hbyte
  exact absurd hbyte (by decide)

end RiscvSim.Syscall
