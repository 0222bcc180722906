import RiscvSim.Translate

namespace RiscvSim

open Results BitFields

namespace Sv32

/-- A page table entry, by the fields of the privileged architecture. -/
structure Pte where
  word : U32

namespace Pte

def V (pte : Pte) : Bool := pte.word.getLsbD 0
def R (pte : Pte) : Bool := pte.word.getLsbD 1
def W (pte : Pte) : Bool := pte.word.getLsbD 2
def X (pte : Pte) : Bool := pte.word.getLsbD 3
def D (pte : Pte) : Bool := pte.word.getLsbD 7

def ppn (pte : Pte) : ℕ := pte.word.toNat / 2 ^ 10

def valid (pte : Pte) : Bool := pte.V && (pte.R || !pte.W)

def leaf (pte : Pte) : Bool := pte.R || pte.X

end Pte

def vpn (va : U32) (level : ℕ) : ℕ := va.toNat / 2 ^ (12 + 10 * level) % 2 ^ 10

def entry (mem : ℕ → U8) (ppn level : ℕ) (va : U32) : Pte :=
  ⟨Bytes.read mem (ppn * 4096 + 4 * vpn va level) 4⟩

structure Leaf where
  level : ℕ
  pte : Pte

def walk (mem : ℕ → U8) (va : U32) : ℕ → ℕ → Option Leaf
  | level, ppn =>
    let pte := entry mem ppn level va
    if pte.valid = false then none
    else if pte.leaf then some ⟨level, pte⟩
    else match level with
      | 0 => none
      | level + 1 => walk mem va level pte.ppn

/-- The address a leaf maps `va` to: the frame, and the offset in the page. -/
def Leaf.addr (leaf : Leaf) (va : U32) : ℕ :=
  leaf.pte.word.toNat / 2 ^ (10 + 10 * leaf.level) * 2 ^ (12 + 10 * leaf.level) +
    va.toNat % 2 ^ (12 + 10 * leaf.level)

/-- The tables of frames below 4 GiB, down to the leaf. -/
def TablesBelow (mem : ℕ → U8) (va : U32) : ℕ → ℕ → Prop
  | level, ppn =>
    ppn * 4096 + 4096 ≤ 2 ^ 32 ∧
      let pte := entry mem ppn level va
      (pte.valid → pte.leaf = false → match level with
        | 0 => True
        | level + 1 => TablesBelow mem va level pte.ppn)

instance (mem : ℕ → U8) (va : U32) : ∀ level ppn, Decidable (TablesBelow mem va level ppn)
  | 0, ppn => inferInstanceAs (Decidable (ppn * 4096 + 4096 ≤ 2 ^ 32 ∧
      ((entry mem ppn 0 va).valid → (entry mem ppn 0 va).leaf = false → True)))
  | level + 1, ppn =>
    have : Decidable (TablesBelow mem va level (entry mem ppn (level + 1) va).ppn) :=
      instDecidableTablesBelow mem va level _
    inferInstanceAs (Decidable (ppn * 4096 + 4096 ≤ 2 ^ 32 ∧
      ((entry mem ppn (level + 1) va).valid → (entry mem ppn (level + 1) va).leaf = false →
        TablesBelow mem va level (entry mem ppn (level + 1) va).ppn)))

end Sv32

namespace MMU

def rootPpn (mmu : MMU) : ℕ := mmu.satp.toNat % 2 ^ 22

theorem invalid_iff (w : U32) :
    (w &&& 1#32 = 0#32 ∨ (w &&& 2#32 = 0#32 ∧ w &&& 4#32 = 4#32)) ↔
      (⟨w⟩ : Sv32.Pte).valid = false := by
  rw [bit_eq_zero_iff w (m := 1#32) (show 0 < 32 by decide) rfl, bit_eq_zero_iff w (m := 2#32) (show 1 < 32 by decide) rfl,
    bit_eq_self_iff w (m := 4#32) (show 2 < 32 by decide) rfl]
  simp only [Sv32.Pte.valid, Sv32.Pte.V, Sv32.Pte.R, Sv32.Pte.W, Bool.and_eq_false_iff,
    Bool.or_eq_false_iff, Bool.not_eq_eq_eq_not, Bool.not_false]

theorem leaf_iff (w : U32) :
    (w &&& 2#32 ≠ 0#32 ∨ w &&& 8#32 ≠ 0#32) ↔ (⟨w⟩ : Sv32.Pte).leaf = true := by
  rw [ne_eq, ne_eq, bit_eq_zero_iff w (m := 2#32) (show 1 < 32 by decide) rfl,
    bit_eq_zero_iff w (m := 8#32) (show 3 < 32 by decide) rfl]
  simp only [Sv32.Pte.leaf, Sv32.Pte.R, Sv32.Pte.X, Bool.or_eq_true, Bool.not_eq_false]

theorem toNat_vpn (va : U32) {i : ℕ} (hi : i ≤ 1) : (vpn va i).toNat = Sv32.vpn va i := by
  unfold vpn Sv32.vpn
  have hlt := va.isLt
  rcases Nat.le_one_iff_eq_zero_or_eq_one.mp hi with rfl | rfl
  · rw [if_neg (by decide), BitVec.toNat_ushiftRight, BitVec.toNat_shiftLeft,
      Nat.shiftRight_eq_div_pow, Nat.shiftLeft_eq]
    omega
  · rw [if_pos (by decide), BitVec.toNat_ushiftRight, Nat.shiftRight_eq_div_pow]
    omega

/-- Below 4 GiB no address of a page table entry is cut short. -/
theorem ptr_of_getMemPtr {mmu : MMU} {va : U32} {i ppn ptr : ℕ} {table_pa : U64} (hi : i ≤ 1)
    (ht : table_pa.toNat = ppn * 4096) (hb : ppn * 4096 + 4096 ≤ 2 ^ 32)
    (h : mmu.getMemPtr 4 (table_pa + (ptesize * vpn va i).setWidth 64) = .ok ptr) :
    ptr = ppn * 4096 + 4 * Sv32.vpn va i := by
  have hv := toNat_vpn va hi
  have hv' : Sv32.vpn va i < 2 ^ 10 := Nat.mod_lt _ (by decide)
  have hp : (table_pa + (ptesize * vpn va i).setWidth 64).toNat =
      ppn * 4096 + 4 * Sv32.vpn va i := by
    rw [BitVec.toNat_add, setWidth_toNat (by decide), BitVec.toNat_mul, hv, ht]
    simp only [ptesize, BitVec.toNat_ofNat]
    omega
  simp only [getMemPtr, BitVec.toNat_setWidth, hp] at h
  split at h
  · cases h
  · injection h with h
    omega

theorem walk_eq (mmu : MMU) (va : U32) (i : ℕ) (table_pa : U64) : mmu.walk va i table_pa =
    mmu.getMemPtr 4 (table_pa + (ptesize * vpn va i).setWidth 64) >>= fun ptr ↦
      let pte : Sv32.Pte := ⟨mmu.readMem 4 ptr⟩
      if pte.valid = false then .error (.simException "page fault valid or R W")
      else if pte.leaf then .ok (ptr, i)
      else match i with
        | 0 => .error (.simException "page fault i < 0")
        | i + 1 => mmu.walk va i ((pte.word >>> 10 * pagesize).setWidth 64) := by
  rw [walk]
  simp only [invalid_iff, leaf_iff]
  rfl

/-- The walk of the program is the walk of the architecture while the tables lie below
4 GiB. -/
theorem walk_refines {mmu : MMU} {va : U32} {i ppn ptr j : ℕ} {table_pa : U64} (hi : i ≤ 1)
    (ht : table_pa.toNat = ppn * 4096) (hb : Sv32.TablesBelow mmu.pmem_ va i ppn)
    (h : mmu.walk va i table_pa = .ok (ptr, j)) :
    j ≤ 1 ∧ Sv32.walk mmu.pmem_ va i ppn = some ⟨j, ⟨mmu.readMem 4 ptr⟩⟩ := by
  induction i generalizing ppn table_pa with
  | zero =>
    rw [walk_eq] at h
    obtain ⟨p, hp, h⟩ := bind_eq_ok.mp h
    rw [Sv32.TablesBelow] at hb
    have he : Sv32.entry mmu.pmem_ ppn 0 va = ⟨mmu.readMem 4 p⟩ := by
      rw [ptr_of_getMemPtr hi ht hb.1 hp]
      rfl
    rw [Sv32.walk, he]
    dsimp only at h ⊢
    split at h
    · cases h
    · next hv =>
      split at h
      · next hl =>
        cases h
        rw [if_neg hv, if_pos hl]
        exact ⟨hi, rfl⟩
      · cases h
  | succ i ih =>
    rw [walk_eq] at h
    obtain ⟨p, hp, h⟩ := bind_eq_ok.mp h
    rw [Sv32.TablesBelow] at hb
    have he : Sv32.entry mmu.pmem_ ppn (i + 1) va = ⟨mmu.readMem 4 p⟩ := by
      rw [ptr_of_getMemPtr hi ht hb.1 hp]
      rfl
    rw [Sv32.walk, he]
    rw [he] at hb
    dsimp only at h hb ⊢
    split at h
    · cases h
    · next hv =>
      split at h
      · next hl =>
        cases h
        rw [if_neg hv, if_pos hl]
        exact ⟨hi, rfl⟩
      · next hl =>
        rw [if_neg hv, if_neg hl]
        have hT := hb.2 (by simpa using hv) (by simpa using hl)
        refine ih (by omega) ?_ hT h
        have hlt : (⟨mmu.readMem 4 p⟩ : Sv32.Pte).ppn * 4096 + 4096 ≤ 2 ^ 32 := by
          rw [Sv32.TablesBelow] at hT
          exact hT.1
        dsimp only [Sv32.Pte.ppn] at hlt ⊢
        rw [setWidth_toNat (by decide), BitVec.toNat_mul, BitVec.toNat_ushiftRight,
          Nat.shiftRight_eq_div_pow]
        exact Nat.mod_eq_of_lt (by rw [pagesize, BitVec.toNat_ofNat]; omega)

theorem getLsbD_eq_mod (w : U32) (k : ℕ) : w.getLsbD k = false ↔ w.toNat / 2 ^ k % 2 = 0 := by
  rw [BitVec.getLsbD, Nat.testBit_eq_decide_div_mod_eq, decide_eq_false_iff_not]
  omega

theorem translate_addr_iff {mmu mmu' : MMU} {va : U32} {acc : AccessType} {pa : U64}
    (hv : mmu.isVirtualAddressing = true)
    (hT : Sv32.TablesBelow mmu.pmem_ va 1 mmu.rootPpn)
    (h : (translate va acc).run mmu = .ok pa mmu') :
    ∃ leaf, Sv32.walk mmu.pmem_ va 1 mmu.rootPpn = some leaf ∧
      (pa.toNat = leaf.addr va ↔ leaf.pte.word.getLsbD (10 + 10 * leaf.level) = false) := by
  obtain ⟨ptr, i, hl, rfl, -⟩ := (translate_eq_ok hv).mp h
  obtain ⟨hw, -⟩ := leafOf_eq_ok.mp hl
  have hroot : mmu.rootTable.toNat = mmu.rootPpn * 4096 := by
    have hlt := hT
    rw [Sv32.TablesBelow] at hlt
    rw [rootTable, setWidth_toNat (by decide), BitVec.toNat_mul, toNat_and_mask _ (k := 22) rfl]
    exact Nat.mod_eq_of_lt (by rw [pagesize, BitVec.toNat_ofNat]; unfold rootPpn at hlt; omega)
  obtain ⟨hi, hleaf⟩ := walk_refines (show 1 ≤ 1 from le_rfl) hroot hT hw
  refine ⟨_, hleaf, ?_⟩
  rw [getLsbD_eq_mod, Sv32.Leaf.addr]
  rcases Nat.le_one_iff_eq_zero_or_eq_one.mp hi with rfl | rfl
  · rw [leafAddr_zero, touch_high _ _ (by decide), pteAt]
    dsimp only
    omega
  · rw [leafAddr_one, touch_high _ _ (by decide), pteAt]
    dsimp only
    omega

/-- A successful translation gives the address the leaf names exactly when the lowest bit
of the leaf's frame number is clear: bit 10 of the entry at level 0, bit 20 at level 1.
Then different frames give different addresses. -/
theorem translate_names_frame (mmu : MMU) (hv : mmu.isVirtualAddressing = true) :
    (∀ va acc pa mmu', Sv32.TablesBelow mmu.pmem_ va 1 mmu.rootPpn →
      (translate va acc).run mmu = .ok pa mmu' →
      ∃ leaf, Sv32.walk mmu.pmem_ va 1 mmu.rootPpn = some leaf ∧
        (pa.toNat = leaf.addr va ↔ leaf.pte.word.getLsbD (10 + 10 * leaf.level) = false)) ∧
    (∀ va₁ va₂ leaf₁ leaf₂ acc₁ acc₂ pa₁ pa₂ mmu₁ mmu₂,
      Sv32.TablesBelow mmu.pmem_ va₁ 1 mmu.rootPpn → Sv32.TablesBelow mmu.pmem_ va₂ 1 mmu.rootPpn →
      (translate va₁ acc₁).run mmu = .ok pa₁ mmu₁ → (translate va₂ acc₂).run mmu = .ok pa₂ mmu₂ →
      Sv32.walk mmu.pmem_ va₁ 1 mmu.rootPpn = some leaf₁ →
      Sv32.walk mmu.pmem_ va₂ 1 mmu.rootPpn = some leaf₂ →
      leaf₁.pte.word.getLsbD (10 + 10 * leaf₁.level) = false →
      leaf₂.pte.word.getLsbD (10 + 10 * leaf₂.level) = false →
      leaf₁.addr va₁ / 4096 ≠ leaf₂.addr va₂ / 4096 → pa₁ ≠ pa₂) := by
  refine ⟨fun va acc pa mmu' hT h ↦ translate_addr_iff hv hT h, ?_⟩
  intro va₁ va₂ leaf₁ leaf₂ acc₁ acc₂ pa₁ pa₂ mmu₁ mmu₂ hT₁ hT₂ h₁ h₂ hl₁ hl₂ hc₁ hc₂ hne hpa
  obtain ⟨leaf, hw, hiff⟩ := translate_addr_iff hv hT₁ h₁
  rw [hl₁] at hw
  cases hw
  have ha₁ := hiff.mpr hc₁
  obtain ⟨leaf, hw, hiff⟩ := translate_addr_iff hv hT₂ h₂
  rw [hl₂] at hw
  cases hw
  have ha₂ := hiff.mpr hc₂
  rw [← ha₁, ← ha₂, hpa] at hne
  exact hne rfl

/-- A root table in frame 1 and a table in frame 2, whose two entries map pages to the
frames 3 and 2. -/
def oddFrame : MMU where
  instTLB_ := .new 256
  dataTLB_ := .new 256
  pmem_size_ := 0x8000
  pmem_ :=
    let mem := Bytes.write (n := 4) (fun _ ↦ 0) 0x1000 0x801#32
    let mem := Bytes.write (n := 4) mem 0x2000 0xC0F#32
    Bytes.write (n := 4) mem 0x2004 0x80F#32
  satp := 0x80000001#32

theorem translate_names_frame_oddFrame : ∃ leaf,
    Sv32.walk oddFrame.pmem_ 0x1004#32 1 oddFrame.rootPpn = some leaf ∧
      (0x2004 = leaf.addr 0x1004#32 ↔ leaf.pte.word.getLsbD (10 + 10 * leaf.level) = false) :=
  (translate_names_frame oddFrame (by decide)).1 0x1004#32 .WRITE 0x2004#64 _ (by decide) (by rfl)

/-- Pages of the frames 3 and 2 share their addresses. -/
theorem translate_merges_frames : ¬ ∀ mmu : MMU, mmu.isVirtualAddressing = true →
    ∀ va acc pa mmu', Sv32.TablesBelow mmu.pmem_ va 1 mmu.rootPpn →
      (translate va acc).run mmu = .ok pa mmu' → ∀ leaf,
        Sv32.walk mmu.pmem_ va 1 mmu.rootPpn = some leaf → pa.toNat = leaf.addr va := by
  intro h
  have hpa := h oddFrame (by decide) 0#32 .READ 0x2000#64 _ (by decide) (by rfl) ⟨0, ⟨0xC0F#32⟩⟩ (by rfl)
  exact absurd hpa (by decide)

end MMU

end RiscvSim
