import RiscvSim.Coherent

namespace RiscvSim

open Results

namespace MMU

/-- `n` one-byte loads from `va` on, the first byte lowest. -/
def loadBytes (instRead : Bool) : (n : ℕ) → U32 → EStateM Stop MMU (BitVec (8 * n))
  | 0, _ => return 0#0
  | n + 1, va => do
    let low ← load 1 va instRead
    let high ← loadBytes instRead n (va + 1)
    return high ++ low

/-- The first `k` of the one-byte stores of `data`. -/
def storeBytes {n : ℕ} (va : U32) (data : BitVec (8 * n)) : ℕ → EStateM Stop MMU Unit
  | 0 => return
  | k + 1 => do
    storeBytes va data k
    store (n := 1) (va + BitVec.ofNat 32 k) (Bytes.byte data k)

def Faults {α : Type} (r : EStateM.Result Stop MMU α) : Prop := ∃ e m, r = .error e m ∧ e.IsException

/-- The load returns the bytes that one-byte loads return, or both fault. -/
def LoadIsBytes (m : MMU) (n : ℕ) (va : U32) (instRead : Bool) : Prop :=
  (∃ v m₁ m₂, (load n va instRead).run m = .ok v m₁ ∧ (loadBytes instRead n va).run m = .ok v m₂) ∨
    Faults ((load n va instRead).run m) ∧ Faults ((loadBytes instRead n va).run m)

/-- The store leaves the memory that one-byte stores leave, or both fault. -/
def StoreIsBytes (m : MMU) {n : ℕ} (va : U32) (data : BitVec (8 * n)) : Prop :=
  (∃ m₁ m₂, (store va data).run m = .ok () m₁ ∧ (storeBytes va data n).run m = .ok () m₂ ∧
    m₁.pmem_ = m₂.pmem_) ∨
    Faults ((store va data).run m) ∧ Faults ((storeBytes va data n).run m)

/-- The memory once the first `k` bytes have been translated one by one. -/
def marked (acc : AccessType) (m : MMU) (va : U32) : ℕ → MMU
  | 0 => m
  | k + 1 => (m.marked acc va k).mark acc (va + BitVec.ofNat 32 k)

def ownByte (acc : AccessType) (m : MMU) (va : U32) (i : ℕ) : Except Stop U8 :=
  (m.marked acc va i).wordAt acc 1 (va + BitVec.ofNat 32 i)

/-- What lies `i` bytes after the first byte in physical memory. -/
def nextByte (acc : AccessType) (m : MMU) (va : U32) (i : ℕ) : Except Stop U8 := do
  let pa ← m.physOf acc va
  let p ← m.getMemPtr (i + 1) pa
  return (m.mark acc va).readMem 1 (p + i)

/-- The bytes past the end of the page, as the next page is mapped, are those that follow the
first page's frame in physical memory; or some byte faults either way. -/
def Seamless (acc : AccessType) (m : MMU) (n : ℕ) (va : U32) : Prop :=
  (∀ i < n, 4096 ≤ va.toNat % 4096 + i →
    ∃ b, m.ownByte acc va i = .ok b ∧ m.nextByte acc va i = .ok b) ∨
  (∃ i < n, ∃ e, m.ownByte acc va i = .error e) ∧ ∃ i < n, ∃ e, m.nextByte acc va i = .error e

section

variable {acc : AccessType} {m : MMU} {c : LRUCache U32 PhysAddr} {va : U32} {n : ℕ}

theorem byte_succ (va : U32) (k : ℕ) :
    va + BitVec.ofNat 32 (k + 1) = va + 1 + BitVec.ofNat 32 k := by
  rw [BitVec.add_assoc, Nat.add_comm, ← BitVec.ofNat_add_ofNat]
  rfl

variable (acc m va) in
theorem marked_succ (k : ℕ) :
    m.marked acc va (k + 1) = (m.mark acc va).marked acc (va + 1) k := by
  induction k with
  | zero => rw [marked, marked, marked, BitVec.add_zero]
  | succ k ih => rw [marked, ih, marked, byte_succ]

variable (acc m va) in
theorem ownByte_zero : m.ownByte acc va 0 = m.wordAt acc 1 va := by
  rw [ownByte, marked, BitVec.add_zero]

variable (acc m va) in
theorem ownByte_succ (i : ℕ) :
    m.ownByte acc va (i + 1) = (m.mark acc va).ownByte acc (va + 1) i := by
  rw [ownByte, ownByte, marked_succ, byte_succ]

theorem Coherent.loadBytes_ok {r : Bool} (h : ((tlbOf (readType r)).set c m).Coherent (readType r))
    {f : ℕ → U8} {a : ℕ} (hf : ∀ i < n, m.ownByte (readType r) va i = .ok (f (a + i))) :
    ∃ m', (loadBytes r n va).run ((tlbOf (readType r)).set c m) = .ok (Bytes.read f a n) m' := by
  induction n generalizing m c va a with
  | zero => exact ⟨_, rfl⟩
  | succ n ih =>
    have hfirst := hf 0 (Nat.succ_pos n)
    rw [ownByte_zero] at hfirst
    obtain ⟨c', hrun, h'⟩ := (h.load 1 va).2 _ hfirst
    have hrest : ∀ i < n, (m.mark (readType r) va).ownByte (readType r) (va + 1) i =
        .ok (f (a + 1 + i)) := by
      intro i hi
      rw [← ownByte_succ, hf (i + 1) (Nat.succ_lt_succ hi), Nat.add_assoc, Nat.add_comm 1 i]
    obtain ⟨m', hrun'⟩ := ih h' hrest
    refine ⟨m', ?_⟩
    rw [loadBytes, run_bind_of_ok hrun, run_bind_of_ok hrun']
    rfl

theorem Coherent.loadBytes_error {r : Bool}
    (h : ((tlbOf (readType r)).set c m).Coherent (readType r)) {i : ℕ} (hi : i < n) {e : Stop}
    (he : m.ownByte (readType r) va i = .error e) :
    Faults ((loadBytes r n va).run ((tlbOf (readType r)).set c m)) := by
  induction n generalizing m c va i with
  | zero => omega
  | succ n ih =>
    obtain ⟨herr, hok⟩ := h.load 1 va
    cases hfirst : m.wordAt (readType r) 1 va with
    | error e' =>
      obtain ⟨m', hrun⟩ := herr e' hfirst
      refine ⟨e', m', ?_, wordAt_error hfirst⟩
      rw [loadBytes, run_bind_of_error hrun]
    | ok b =>
      obtain ⟨c', hrun, h'⟩ := hok b hfirst
      cases i with
      | zero =>
        rw [ownByte_zero, hfirst] at he
        cases he
      | succ i =>
        rw [ownByte_succ] at he
        obtain ⟨e', m', hrun', hexc⟩ := ih h' (Nat.lt_of_succ_lt_succ hi) he
        refine ⟨e', m', ?_, hexc⟩
        rw [loadBytes, run_bind_of_ok hrun, run_bind_of_error hrun']

theorem nextByte_eq_ok {i : ℕ} {b : U8} : m.nextByte acc va i = .ok b ↔ ∃ pa,
    m.physOf acc va = .ok pa ∧ pa.toNat % 2 ^ 32 + (i + 1) < m.pmem_size_ ∧
      (m.mark acc va).readMem 1 (pa.toNat % 2 ^ 32 + i) = b := by
  simp only [nextByte, bind_eq_ok, getMemPtr_eq_ok, pure, Except.pure, Except.ok.injEq]
  simp

theorem byte_readMem (m : MMU) {p i : ℕ} (hi : i < n) :
    Bytes.byte (m.readMem n p) i = m.readMem 1 (p + i) := by
  rw [readMem, Bytes.byte_read _ _ hi]
  apply Bytes.eq_of_byte (n := 1)
  intro j hj
  rw [readMem, Bytes.byte_read _ _ hj]
  obtain rfl : j = 0 := by omega
  simp [Bytes.byte]

theorem wordAt_ok (hn : 0 < n) {f : ℕ → U8} (hf : ∀ i < n, m.nextByte acc va i = .ok (f i)) :
    m.wordAt acc n va = .ok (Bytes.read f 0 n) := by
  obtain ⟨pa, hpa, hin, -⟩ := nextByte_eq_ok.mp (hf (n - 1) (Nat.sub_lt hn Nat.one_pos))
  refine wordAt_eq_ok.mpr ⟨pa, hpa, by omega, ?_⟩
  apply Bytes.eq_of_byte
  intro i hi
  obtain ⟨pa', hpa', -, hb⟩ := nextByte_eq_ok.mp (hf i hi)
  rw [hpa] at hpa'
  cases hpa'
  rw [byte_readMem _ hi, hb, Bytes.byte_read _ _ hi, Nat.zero_add]

theorem wordAt_of_nextByte_error {i : ℕ} (hi : i < n) {e : Stop} (he : m.nextByte acc va i = .error e) :
    ∃ e, m.wordAt acc n va = .error e := by
  cases hw : m.wordAt acc n va with
  | error e => exact ⟨e, rfl⟩
  | ok v =>
    obtain ⟨pa, hpa, hin, -⟩ := wordAt_eq_ok.mp hw
    have hok := nextByte_eq_ok.mpr ⟨pa, hpa, show pa.toNat % 2 ^ 32 + (i + 1) < _ by omega, rfl⟩
    rw [he] at hok
    cases hok

def SamePage (va : U32) (i : ℕ) : Prop := va.toNat % 4096 + i < 4096

theorem SamePage.toNat {i : ℕ} (h : SamePage va i) : (va + BitVec.ofNat 32 i).toNat = va.toNat + i := by
  have hlt := va.isLt
  rw [SamePage] at h
  rw [BitVec.toNat_add, BitVec.toNat_ofNat]
  omega

theorem SamePage.walk {i : ℕ} (h : SamePage va i) {j : ℕ} (hj : j ≤ 1) (table_pa : U64) :
    m.walk (va + BitVec.ofNat 32 i) j table_pa = m.walk va j table_pa := by
  have hvpn : ∀ j ≤ 1, vpn (va + BitVec.ofNat 32 i) j = vpn va j := by
    intro j hj
    apply BitVec.eq_of_toNat_eq
    rw [toNat_vpn _ hj, toNat_vpn _ hj, Sv32.vpn, Sv32.vpn, h.toNat]
    rw [SamePage] at h
    rcases Nat.le_one_iff_eq_zero_or_eq_one.mp hj with rfl | rfl
    · omega
    · omega
  induction j generalizing table_pa with
  | zero => rw [MMU.walk, MMU.walk, hvpn 0 hj]
  | succ j ih =>
    rw [MMU.walk, MMU.walk, hvpn (j + 1) hj]
    simp only [ih (Nat.le_of_succ_le hj)]

theorem SamePage.leafOf {i : ℕ} (h : SamePage va i) :
    m.leafOf (va + BitVec.ofNat 32 i) acc = m.leafOf va acc := by
  rw [MMU.leafOf, MMU.leafOf, h.walk (le_refl 1)]

theorem leafAddr_mod (va pte : U32) (i : ℕ) : (leafAddr va pte i).toNat % 4096 = va.toNat % 4096 := by
  by_cases hi : i = 0
  · subst hi
    rw [leafAddr_zero]
    omega
  · have hone : leafAddr va pte i = leafAddr va pte 1 := by
      rw [leafAddr, leafAddr, if_pos hi, if_pos Nat.one_ne_zero]
    rw [hone, leafAddr_one]
    omega

theorem SamePage.leafAddr {i : ℕ} (h : SamePage va i) (pte : U32) (j : ℕ) :
    (MMU.leafAddr (va + BitVec.ofNat 32 i) pte j).toNat = (MMU.leafAddr va pte j).toNat + i := by
  have hadd := h.toNat
  rw [SamePage] at h
  by_cases hj : j = 0
  · subst hj
    rw [leafAddr_zero, leafAddr_zero, hadd]
    omega
  · have hone : ∀ va, MMU.leafAddr va pte j = MMU.leafAddr va pte 1 := fun va ↦ by
      rw [MMU.leafAddr, MMU.leafAddr, if_pos hj, if_pos Nat.one_ne_zero]
    rw [hone, hone, leafAddr_one, leafAddr_one, hadd]
    omega

theorem SamePage.physOf {i : ℕ} (h : SamePage va i) {pa : U64} (hp : m.physOf acc va = .ok pa) :
    ∃ pa', m.physOf acc (va + BitVec.ofNat 32 i) = .ok pa' ∧
      pa'.toNat % 2 ^ 32 = pa.toNat % 2 ^ 32 + i := by
  obtain ⟨ptr, j, hl, rfl⟩ := physOf_eq_ok.mp hp
  refine ⟨_, physOf_eq_ok.mpr ⟨ptr, j, h.leafOf.trans hl, rfl⟩, ?_⟩
  have hmod := leafAddr_mod va (m.pteAt ptr) j
  rw [h.leafAddr]
  rw [SamePage] at h
  omega

theorem SamePage.mark {i : ℕ} (h : SamePage va i) : m.mark acc (va + BitVec.ofNat 32 i) = m.mark acc va := by
  rw [MMU.mark, MMU.mark, h.leafOf]

theorem marked_of_samePage {i : ℕ} (h : SamePage va i) : m.marked acc va (i + 1) = m.mark acc va := by
  induction i with
  | zero => rw [marked, marked, BitVec.add_zero]
  | succ i ih =>
    have hi : SamePage va i := Nat.lt_of_succ_lt h
    rw [marked, ih hi, h.mark]
    exact (quiet_mark acc m va).mark_eq

theorem physOf_marked (acc : AccessType) (m : MMU) (va a : U32) (k : ℕ) :
    (m.marked acc va k).physOf acc a = m.physOf acc a := by
  induction k with
  | zero => rfl
  | succ k ih => rw [marked, (mark_evolves acc _ _).physOf, ih]

theorem size_marked (acc : AccessType) (m : MMU) (va : U32) (k : ℕ) :
    (m.marked acc va k).pmem_size_ = m.pmem_size_ := by
  induction k with
  | zero => rfl
  | succ k ih => rw [marked, (mark_evolves acc _ _).size, ih]

theorem SamePage.ownByte_iff {i : ℕ} (h : SamePage va i) (b : U8) :
    m.ownByte acc va i = .ok b ↔ m.nextByte acc va i = .ok b := by
  rw [ownByte, wordAt_eq_ok, nextByte_eq_ok, physOf_marked, size_marked,
    show (m.marked acc va i).mark acc (va + BitVec.ofNat 32 i) = m.marked acc va (i + 1) from rfl,
    marked_of_samePage h]
  cases hp : m.physOf acc va with
  | error e =>
    have hp' : m.physOf acc (va + BitVec.ofNat 32 i) = .error e := by
      rw [MMU.physOf, h.leafOf, leafOf_of_physOf hp]
      rfl
    rw [hp']
    simp
  | ok pa =>
    obtain ⟨pa', hp', hadd⟩ := h.physOf hp
    rw [hp']
    simp only [Except.ok.injEq, exists_eq_left', hadd, Nat.add_assoc]

theorem exists_error {β : Type} {f : ℕ → Except Stop β} (h : ¬ ∀ i < n, ∃ b, f i = .ok b) :
    ∃ i < n, ∃ e, f i = .error e := by
  push Not at h
  obtain ⟨i, hi, hf⟩ := h
  cases he : f i with
  | error e => exact ⟨i, hi, e, he⟩
  | ok b => exact absurd he (hf b)

/-- Where all bytes are found both ways, seams show in the bytes only. -/
theorem seamless_iff_of_ok {f g : ℕ → U8} (hf : ∀ i < n, m.ownByte acc va i = .ok (f i))
    (hg : ∀ i < n, m.nextByte acc va i = .ok (g i)) :
    Seamless acc m n va ↔ Bytes.read g 0 n = Bytes.read f 0 n := by
  constructor
  · rintro (hpast | ⟨⟨i, hi, e, he⟩, -⟩)
    · refine Bytes.read_congr fun i _ hi ↦ ?_
      rw [Nat.zero_add] at hi
      by_cases hpage : SamePage va i
      · have hown := (hpage.ownByte_iff (f i)).mp (hf i hi)
        exact Except.ok.inj ((hg i hi).symm.trans hown)
      · obtain ⟨b, hb, hb'⟩ := hpast i hi (Nat.le_of_not_lt hpage)
        have hleft := Except.ok.inj ((hf i hi).symm.trans hb)
        have hright := Except.ok.inj ((hg i hi).symm.trans hb')
        rw [hleft, hright]
    · rw [hf i hi] at he
      cases he
  · intro heq
    refine .inl fun i hi _ ↦ ⟨f i, hf i hi, ?_⟩
    have hbyte := congrArg (Bytes.byte · i) heq
    simp only [Bytes.byte_read _ _ hi, Nat.zero_add] at hbyte
    rw [hg i hi, hbyte]

theorem Seamless.ok_iff (h : Seamless acc m n va) :
    (∀ i < n, ∃ b, m.ownByte acc va i = .ok b) ↔ ∀ i < n, ∃ b, m.nextByte acc va i = .ok b := by
  rcases h with hpast | ⟨⟨i, hi, e, he⟩, j, hj, e', he'⟩
  · refine forall₂_congr fun i hi ↦ ?_
    by_cases hpage : SamePage va i
    · exact exists_congr fun b ↦ hpage.ownByte_iff b
    · obtain ⟨b, hb, hb'⟩ := hpast i hi (Nat.le_of_not_lt hpage)
      exact iff_of_true ⟨b, hb⟩ ⟨b, hb'⟩
  · refine iff_of_false (fun hall ↦ ?_) fun hall ↦ ?_
    · obtain ⟨b, hb⟩ := hall i hi
      rw [he] at hb
      cases hb
    · obtain ⟨b, hb⟩ := hall j hj
      rw [he'] at hb
      cases hb

theorem load_isBytes_iff {r : Bool} (h : m.Coherent (readType r)) (hn : 0 < n) (va : U32) :
    LoadIsBytes m n va r ↔ Seamless (readType r) m n va := by
  have hm : (tlbOf (readType r)).set ((tlbOf (readType r)).get m) m = m := (tlbOf (readType r)).set_get m
  rw [← hm] at h
  have hwide := h.load n va
  have hbytes : ∀ f : ℕ → U8, (∀ i < n, m.ownByte (readType r) va i = .ok (f i)) →
      ∃ m', (loadBytes r n va).run ((tlbOf (readType r)).set ((tlbOf (readType r)).get m) m) =
        .ok (Bytes.read f 0 n) m' := fun f hf ↦ h.loadBytes_ok fun i hi ↦ by rw [hf i hi, Nat.zero_add]
  have hfault : ∀ i < n, ∀ e, m.ownByte (readType r) va i = .error e →
      Faults ((loadBytes r n va).run ((tlbOf (readType r)).set ((tlbOf (readType r)).get m) m)) :=
    fun i hi e he ↦ h.loadBytes_error hi he
  rw [hm] at hwide hbytes hfault
  by_cases hown : ∀ i < n, ∃ b, m.ownByte (readType r) va i = .ok b
  · have hown' := hown
    choose! f hf using hown
    obtain ⟨m₂, hrun₂⟩ := hbytes f hf
    by_cases hnext : ∀ i < n, ∃ b, m.nextByte (readType r) va i = .ok b
    · choose! g hg using hnext
      obtain ⟨c', hrun₁, -⟩ := hwide.2 _ (wordAt_ok hn hg)
      rw [seamless_iff_of_ok hf hg, LoadIsBytes, hrun₁, hrun₂]
      constructor
      · rintro (⟨v, m₁', m₂', h₁, h₂⟩ | ⟨⟨e, t, he, -⟩, -⟩)
        · exact (EStateM.Result.ok.inj h₁).1.trans (EStateM.Result.ok.inj h₂).1.symm
        · cases he
      · intro heq
        exact .inl ⟨_, _, _, rfl, by rw [heq]⟩
    · refine iff_of_false ?_ fun hs ↦ hnext (hs.ok_iff.mp hown')
      obtain ⟨i, hi, e, he⟩ := exists_error hnext
      obtain ⟨e', hw⟩ := wordAt_of_nextByte_error hi he
      obtain ⟨t, hrun₁⟩ := hwide.1 e' hw
      rw [LoadIsBytes, hrun₁, hrun₂]
      rintro (⟨v, m₁', m₂', h₁, -⟩ | ⟨-, e, t, he, -⟩)
      · cases h₁
      · cases he
  · obtain ⟨i, hi, e, he⟩ := exists_error hown
    obtain ⟨e₂, t₂, hrun₂, hexc₂⟩ := hfault i hi e he
    by_cases hnext : ∀ i < n, ∃ b, m.nextByte (readType r) va i = .ok b
    · refine iff_of_false ?_ fun hs ↦ hown (hs.ok_iff.mpr hnext)
      choose! g hg using hnext
      obtain ⟨c', hrun₁, -⟩ := hwide.2 _ (wordAt_ok hn hg)
      rw [LoadIsBytes, hrun₁, hrun₂]
      rintro (⟨v, m₁', m₂', -, h₂⟩ | ⟨⟨e, t, he, -⟩, -⟩)
      · cases h₂
      · cases he
    · obtain ⟨j, hj, e', he'⟩ := exists_error hnext
      obtain ⟨e₁, hw⟩ := wordAt_of_nextByte_error hj he'
      obtain ⟨t₁, hrun₁⟩ := hwide.1 e₁ hw
      refine iff_of_true ?_ (.inr ⟨⟨i, hi, e, he⟩, j, hj, e', he'⟩)
      rw [LoadIsBytes, hrun₁, hrun₂]
      exact .inr ⟨⟨e₁, t₁, rfl, wordAt_error hw⟩, e₂, t₂, rfl, hexc₂⟩

end

/-- The memory with the leaf of `va` marked and the first `k` bytes of a store in place. -/
def filled {n : ℕ} (m : MMU) (va : U32) (data : BitVec (8 * n)) (p : ℕ) : ℕ → MMU
  | 0 => m.mark .WRITE va
  | k + 1 => (m.filled va data p k).writeMem (n := 1) (p + k) (Bytes.byte data k)

/-- A store at `a` goes to `p` and has nothing left to mark. -/
def Leads (m : MMU) (a : U32) (p : ℕ) : Prop := ∃ pa, m.Settled a .WRITE pa ∧ pa.toNat % 2 ^ 32 = p

/-- Before the store and when its turn comes, every byte that the memory has room for leads `i` bytes
past the first. -/
def Follows {n : ℕ} (m : MMU) (va : U32) (data : BitVec (8 * n)) : Prop :=
  ∀ pa, m.physOf .WRITE va = .ok pa → ∀ i < n, pa.toNat % 2 ^ 32 + i < m.pmem_size_ → ∀ k ∈ [0, i],
    (m.filled va data (pa.toNat % 2 ^ 32) k).Leads (va + BitVec.ofNat 32 i) (pa.toNat % 2 ^ 32 + i)

/-- The store leaves the entries that map its first byte alone. -/
def SparesEntries (m : MMU) (n : ℕ) (va : U32) : Prop :=
  ∀ pa, m.physOf .WRITE va = .ok pa → ∀ w ∈ m.walkPtrs va 1 m.rootTable,
    pa.toNat % 2 ^ 32 + n ≤ w ∨ w + 4 ≤ pa.toNat % 2 ^ 32

/-- The data TLB sends the bytes of the store where they belong. -/
structure Serves (c : LRUCache U32 PhysAddr) (va : U32) (n p : ℕ) : Prop where
  usable : c.Usable
  names : ∀ i < n, ∀ pa, c.Maps (va + BitVec.ofNat 32 i) pa → pa.toNat % 2 ^ 32 = p + i

section

variable {m s : MMU} {c : LRUCache U32 PhysAddr} {va : U32} {n p : ℕ} {data : BitVec (8 * n)}

variable (data) in
theorem store_of_physAddr {pa : U64}
    (h : (physAddr (tlbOf .WRITE) va .WRITE).run s = .ok pa ((tlbOf .WRITE).set c m)) :
    (m.pmem_size_ ≤ pa.toNat % 2 ^ 32 + n → Faults ((store va data).run s)) ∧
    (pa.toNat % 2 ^ 32 + n < m.pmem_size_ → (store va data).run s =
      .ok () ((tlbOf .WRITE).set c (m.writeMem (pa.toNat % 2 ^ 32) data))) := by
  have hstore : (store va data).run s = (physAddr (tlbOf .WRITE) va .WRITE >>= fun pa ↦ (do
      let ptr ← lift ((← get).getMemPtr n pa)
      modify fun mmu ↦ mmu.writeMem ptr data : EStateM Stop MMU Unit)).run s := rfl
  have hptr : ((tlbOf .WRITE).set c m).getMemPtr n pa = m.getMemPtr n pa := rfl
  rw [hstore, run_bind_of_ok h, run_bind_of_ok (EStateM.run_get _), hptr, getMemPtr_run]
  constructor
  · intro hout
    rw [if_pos hout]
    exact ⟨_, _, rfl, _, rfl⟩
  · intro hin
    rw [if_neg (Nat.not_le.mpr hin)]
    rfl

theorem store_of_physAddr_error {e : Stop} {t : MMU}
    (h : (physAddr (tlbOf .WRITE) va .WRITE).run s = .error e t) (he : e.IsException) :
    Faults ((store va data).run s) := by
  have hstore : (store va data).run s = (physAddr (tlbOf .WRITE) va .WRITE >>= fun pa ↦ (do
      let ptr ← lift ((← get).getMemPtr n pa)
      modify fun mmu ↦ mmu.writeMem ptr data : EStateM Stop MMU Unit)).run s := rfl
  rw [hstore, run_bind_of_error h]
  exact ⟨e, t, rfl, he⟩

theorem Leads.unique {a : U32} {q : ℕ} (h : m.Leads a p) (h' : m.Leads a q) : p = q := by
  obtain ⟨pa, hs, rfl⟩ := h
  obtain ⟨pa', hs', rfl⟩ := h'
  have heq := hs.physOf.symm.trans hs'.physOf
  cases heq
  rfl

variable (m va data p) in
theorem filled_mode (k : ℕ) : (m.filled va data p k).pmem_size_ = m.pmem_size_ ∧
    (m.filled va data p k).satp = m.satp := by
  induction k with
  | zero => exact ⟨(mark_evolves .WRITE m va).size, (mark_evolves .WRITE m va).satp⟩
  | succ k ih => exact ih

variable (m va data p) in
theorem filled_pmem (k b : ℕ) : (m.filled va data p k).pmem_ b =
    if p ≤ b ∧ b < p + k then Bytes.byte data (b - p) else (m.mark .WRITE va).pmem_ b := by
  induction k with
  | zero =>
    rw [if_neg (by omega)]
    rfl
  | succ k ih =>
    change (if p + k ≤ b ∧ b < p + k + 1 then
      Bytes.byte (n := 1) (Bytes.byte data k) (b - (p + k)) else (m.filled va data p k).pmem_ b) = _
    by_cases hb : p + k ≤ b ∧ b < p + k + 1
    · obtain rfl : b = p + k := by omega
      rw [if_pos hb, if_pos (by omega), Nat.sub_self, Nat.add_sub_cancel_left]
      simp [Bytes.byte]
    · rw [if_neg hb, ih]
      by_cases hin : p ≤ b ∧ b < p + k
      · rw [if_pos hin, if_pos (by omega)]
      · rw [if_neg hin, if_neg (by omega)]

theorem Serves.store (hc : Serves c va n p) (hv : m.isVirtualAddressing = true) {i : ℕ} (hi : i < n)
    (hl : m.Leads (va + BitVec.ofNat 32 i) (p + i))
    (hinj : ∀ j < n, va + BitVec.ofNat 32 j = va + BitVec.ofNat 32 i → p + j = p + i) (b : U8) :
    (m.pmem_size_ ≤ p + (i + 1) →
      Faults ((MMU.store (n := 1) (va + BitVec.ofNat 32 i) b).run ((tlbOf .WRITE).set c m))) ∧
    (p + (i + 1) < m.pmem_size_ → ∃ c',
      (MMU.store (n := 1) (va + BitVec.ofNat 32 i) b).run ((tlbOf .WRITE).set c m) =
        .ok () ((tlbOf .WRITE).set c' (m.writeMem (n := 1) (p + i) b)) ∧ Serves c' va n p) := by
  obtain ⟨pa, hs, hpa⟩ := hl
  rcases @physAddr_cases .WRITE m c hv hc.usable (va + BitVec.ofNat 32 i) with
    ⟨pa', c', hmap, hrun, hc', hsub⟩ | ⟨-, hok⟩
  · have hpa' := hc.names i hi pa' hmap
    obtain ⟨hout, hin⟩ := store_of_physAddr (n := 1) b hrun
    rw [hpa', Nat.add_assoc] at hout hin
    refine ⟨hout, fun h ↦ ⟨c', hin h, hc', ?_⟩⟩
    exact fun j hj v hm ↦ hc.names j hj v (hsub _ v hm)
  · obtain ⟨c', hrun, hc', hsub⟩ := hok pa hs.physOf
    rw [mark_of_settled hs] at hrun
    obtain ⟨hout, hin⟩ := store_of_physAddr (n := 1) b hrun
    rw [hpa, Nat.add_assoc] at hout hin
    refine ⟨hout, fun h ↦ ⟨c', hin h, hc', fun j hj v hm ↦ ?_⟩⟩
    rcases hsub _ v hm with ⟨ha, rfl⟩ | hold
    · rw [hpa, hinj j hj ha]
    · exact hc.names j hj v hold

theorem Coherent.serves (h : ((tlbOf .WRITE).set c (m.mark .WRITE va)).Coherent .WRITE)
    (hl : ∀ i < n, (m.mark .WRITE va).Leads (va + BitVec.ofNat 32 i) (p + i)) : Serves c va n p where
  usable := h.usable
  names i hi pa hm := by
    have hs := Settled.set_tlb.mp (h.settled _ pa hm)
    exact Leads.unique ⟨pa, hs, rfl⟩ (hl i hi)

theorem storeBytes_faults {k : ℕ} (h : Faults ((storeBytes va data k).run m)) :
    Faults ((storeBytes va data (k + 1)).run m) := by
  obtain ⟨e, t, hrun, he⟩ := h
  refine ⟨e, t, ?_, he⟩
  rw [storeBytes, run_bind_of_error hrun]

theorem storeBytes_run (h : ((tlbOf .WRITE).set c m).Coherent .WRITE) {pa : U64}
    (hpa : m.physOf .WRITE va = .ok pa) (hf : m.Follows va data) (hp : pa.toNat % 2 ^ 32 = p) {k : ℕ}
    (hk : k < n) :
    (m.pmem_size_ ≤ p + (k + 1) ∧
      Faults ((storeBytes va data (k + 1)).run ((tlbOf .WRITE).set c m))) ∨
    (p + (k + 1) < m.pmem_size_ ∧ ∃ c', Serves c' va (min n (m.pmem_size_ - p)) p ∧
      (storeBytes va data (k + 1)).run ((tlbOf .WRITE).set c m) =
        .ok () ((tlbOf .WRITE).set c' (m.filled va data p (k + 1)))) := by
  have hstart : ∀ i < min n (m.pmem_size_ - p), (m.mark .WRITE va).Leads (va + BitVec.ofNat 32 i) (p + i) := by
    intro i hi
    rw [← hp]
    exact hf pa hpa i (by omega) (by omega) 0 List.mem_cons_self
  induction k with
  | zero =>
    obtain ⟨c', hrun, hc'⟩ := (h.physAddr va).2 pa hpa
    obtain ⟨hout, hin⟩ := store_of_physAddr (n := 1) (Bytes.byte data 0) hrun
    have hfirst : (storeBytes va data (0 + 1)).run ((tlbOf .WRITE).set c m) =
        (store (n := 1) va (Bytes.byte data 0)).run ((tlbOf .WRITE).set c m) := by
      rw [storeBytes, BitVec.add_zero]
      rfl
    rw [hp, (mark_evolves .WRITE m va).size] at hout hin
    rw [hfirst]
    rcases Nat.lt_or_ge (p + 1) m.pmem_size_ with hlt | hge
    · exact .inr ⟨hlt, c', hc'.serves hstart, hin hlt⟩
    · exact .inl ⟨hge, hout hge⟩
  | succ k ih =>
    obtain ⟨hsize, hsatp⟩ := filled_mode m va p data (k + 1)
    have hv : (m.filled va data p (k + 1)).isVirtualAddressing = true := by
      rw [isVirtualAddressing, hsatp]
      exact h.virt
    rcases ih (Nat.lt_of_succ_lt hk) with ⟨hge, hbad⟩ | ⟨hlt, c', hc', hrun⟩
    · exact .inl ⟨by omega, storeBytes_faults hbad⟩
    · have hroom : k + 1 < min n (m.pmem_size_ - p) := by omega
      have hlead : (m.filled va data p (k + 1)).Leads (va + BitVec.ofNat 32 (k + 1)) (p + (k + 1)) := by
        rw [← hp]
        exact hf pa hpa (k + 1) hk (by omega) (k + 1) (List.mem_cons_of_mem _ List.mem_cons_self)
      obtain ⟨hout, hin⟩ := hc'.store hv hroom hlead (fun j hj heq ↦ by
        have hj' := hstart j hj
        rw [heq] at hj'
        exact hj'.unique (hstart (k + 1) hroom)) (Bytes.byte data (k + 1))
      rw [hsize] at hout hin
      rw [storeBytes, run_bind_of_ok hrun]
      rcases Nat.lt_or_ge (p + (k + 1 + 1)) m.pmem_size_ with hlt' | hge
      · obtain ⟨c₁, hrun₁, hc₁⟩ := hin hlt'
        exact .inr ⟨hlt', c₁, hc₁, hrun₁⟩
      · exact .inl ⟨hge, hout hge⟩

theorem store_isBytes (h : m.Coherent .WRITE) (hn : 0 < n) (hf : m.Follows va data) :
    StoreIsBytes m va data := by
  have hm : (tlbOf .WRITE).set ((tlbOf .WRITE).get m) m = m := (tlbOf .WRITE).set_get m
  rw [← hm] at h
  obtain ⟨k, rfl⟩ := Nat.exists_eq_add_one_of_ne_zero hn.ne'
  cases hpa : m.physOf .WRITE va with
  | error e =>
    obtain ⟨t, hrun⟩ := (h.physAddr va).1 e hpa
    rw [hm] at hrun
    have hexc := leafOf_error (leafOf_of_physOf hpa)
    refine .inr ⟨store_of_physAddr_error hrun hexc, ?_⟩
    have hall : ∀ k, Faults ((storeBytes va data (k + 1)).run m) := by
      intro k
      induction k with
      | zero =>
        have hfirst : (storeBytes va data (0 + 1)).run m =
            (store (n := 1) va (Bytes.byte data 0)).run m := by
          rw [storeBytes, BitVec.add_zero]
          rfl
        rw [hfirst]
        exact store_of_physAddr_error hrun hexc
      | succ k ih => exact storeBytes_faults ih
    exact hall k
  | ok pa =>
    obtain ⟨c', hrun, -⟩ := (h.physAddr va).2 pa hpa
    obtain ⟨hout, hin⟩ := store_of_physAddr data hrun
    have hbytes := storeBytes_run h hpa hf rfl (Nat.lt_succ_self k)
    rw [hm, (mark_evolves .WRITE m va).size] at hout hin
    rw [hm] at hbytes
    rcases hbytes with ⟨hge, hbad⟩ | ⟨hlt, c₁, -, hrun₁⟩
    · exact .inr ⟨hout hge, hbad⟩
    · refine .inl ⟨_, _, hin hlt, hrun₁, ?_⟩
      rw [tlb_set_pmem, tlb_set_pmem]
      funext b
      rw [filled_pmem]
      rfl

theorem Settled.of_entries {acc : AccessType} {m' : MMU} {pa : U64} (h : m.Settled va acc pa)
    (hsize : m'.pmem_size_ = m.pmem_size_) (hsatp : m'.satp = m.satp)
    (hw : ∀ w ∈ m.walkPtrs va 1 m.rootTable, m'.pteAt w = m.pteAt w) : m'.Settled va acc pa := by
  obtain ⟨ptr, i, hl, ht, rfl⟩ := h
  obtain ⟨hwalk, hallow, hlow⟩ := leafOf_eq_ok.mp hl
  have hroot : m'.rootTable = m.rootTable := by rw [rootTable, rootTable, hsatp]
  have hpte := hw ptr (walk_mem hwalk)
  have hsame := (walk_congr hsize fun w hmem ↦ .inl (hw w hmem)).1
  refine ⟨ptr, i, leafOf_eq_ok.mpr ⟨?_, ?_, ?_⟩, ?_, ?_⟩
  · rw [hroot, hsame, hwalk]
  · rwa [hpte]
  · rwa [hpte]
  · rwa [hpte]
  · rw [hpte]

theorem SamePage.leads {i : ℕ} (h : SamePage va i) (hl : m.Leads va p) :
    m.Leads (va + BitVec.ofNat 32 i) (p + i) := by
  obtain ⟨pa, hs, rfl⟩ := hl
  obtain ⟨pa', hp', hadd⟩ := h.physOf hs.physOf
  obtain ⟨ptr, j, hl, ht, -⟩ := hs
  obtain ⟨ptr', j', hl', hpa'⟩ := physOf_eq_ok.mp hp'
  have hsame := (h.leafOf.trans hl).symm.trans hl'
  cases hsame
  exact ⟨pa', ⟨ptr, j, hl', ht, hpa'.symm⟩, hadd⟩

theorem follows_of_page (hpage : va.toNat % 4096 + n ≤ 4096) (hs : m.SparesEntries n va) :
    m.Follows va data := by
  intro pa hpa i hi _ k hk
  have hki : k ≤ n := by
    rcases List.mem_cons.mp hk with rfl | hk
    · exact Nat.zero_le n
    · rw [List.mem_singleton.mp hk]
      exact hi.le
  have hsame : SamePage va i := Nat.lt_of_lt_of_le (Nat.add_lt_add_left hi _) hpage
  refine hsame.leads ⟨pa, ?_, rfl⟩
  obtain ⟨hsize, hsatp⟩ := filled_mode m va (pa.toNat % 2 ^ 32) data k
  have hev := mark_evolves .WRITE m va
  refine (settled_mark hpa).of_entries (hsize.trans hev.size.symm) (hsatp.trans hev.satp.symm) ?_
  intro w hw
  rw [hev.rootTable, (walk_congr hev.size fun ptr hp ↦ hev.words ptr ⟨va, hp⟩).2] at hw
  have hapart := hs pa hpa w hw
  rw [pteAt, pteAt, readMem, readMem]
  apply Bytes.read_congr
  intro b hb hb'
  rw [filled_pmem, if_neg (by omega)]

end

end MMU

end RiscvSim
