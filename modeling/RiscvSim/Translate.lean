import RiscvSim.Mmu
import RiscvSim.Library.BitFields

namespace RiscvSim.MMU

open Results BitFields

theorem bit_eq_zero_iff (w : U32) {k : ℕ} {m : U32} (hk : k < 32) (hm : m = BitVec.twoPow 32 k) :
    w &&& m = 0#32 ↔ w.getLsbD k = false := by
  subst hm
  rw [BitVec.and_twoPow]
  cases h : w.getLsbD k with
  | false => simp
  | true =>
    simp only [if_true, Bool.true_eq_false, iff_false]
    intro h0
    have hb := congrArg (fun x : U32 ↦ x.getLsbD k) h0
    simp [hk] at hb

theorem bit_eq_self_iff (w : U32) {k : ℕ} {m : U32} (hk : k < 32) (hm : m = BitVec.twoPow 32 k) :
    w &&& m = m ↔ w.getLsbD k = true := by
  subst hm
  rw [BitVec.and_twoPow]
  cases h : w.getLsbD k with
  | true => simp
  | false =>
    simp only [Bool.false_eq_true, if_false, iff_false]
    intro h0
    have hb := congrArg (fun x : U32 ↦ x.getLsbD k) h0
    simp [hk] at hb

def rootTable (mmu : MMU) : U64 := ((mmu.satp &&& 0x3fffff#32) * pagesize).setWidth 64

def pteAt (mmu : MMU) (ptr : ℕ) : U32 := mmu.readMem 4 ptr

/-- The entry that maps `va`, once every check of `translate` is passed, and its level. -/
def leafOf (mmu : MMU) (va : U32) (acc : AccessType) : Except Stop (ℕ × ℕ) :=
  mmu.walk va 1 mmu.rootTable >>= fun r ↦
    if allows acc (mmu.pteAt r.1) = false then .error (.simException "page fault")
    else if r.2 ≠ 0 ∧ mmu.pteAt r.1 >>> 10 &&& 0x3ff#32 ≠ 0#32 then .error (.simException "page fault")
    else .ok r

/-- A translation throws before it writes, or touches the entry that maps the address. -/
theorem translate_run {mmu : MMU} (hv : mmu.isVirtualAddressing = true) (va : U32) (acc : AccessType) :
    (translate va acc).run mmu = match mmu.leafOf va acc with
      | .ok (ptr, i) => .ok (leafAddr va (touch acc (mmu.pteAt ptr)) i)
          (mmu.writeMem (n := 4) ptr (touch acc (mmu.pteAt ptr)))
      | .error e => .error e mmu := by
  have hb : (translate va acc).run mmu = (lift (mmu.walk va 1 mmu.rootTable) >>= fun r ↦
        if allows acc (mmu.pteAt r.1) = false then throw (.simException "page fault")
        else if r.2 ≠ 0 ∧ mmu.pteAt r.1 >>> 10 &&& 0x3ff#32 ≠ 0#32 then
          throw (.simException "page fault")
        else do
          set (mmu.writeMem (n := 4) r.1 (touch acc (mmu.pteAt r.1)))
          return leafAddr va (touch acc (mmu.pteAt r.1)) r.2).run mmu := by
    rw [translate, run_bind_of_ok (EStateM.run_get mmu), if_pos hv]
    rfl
  rw [hb, leafOf]
  cases mmu.walk va 1 mmu.rootTable with
  | error e => rfl
  | ok r =>
    rw [run_bind_of_ok (run_lift_ok r mmu)]
    simp only [bind, Except.bind]
    split
    · rfl
    · split <;> rfl

theorem leafOf_eq_ok {mmu : MMU} {va : U32} {acc : AccessType} {ptr i : ℕ} :
    mmu.leafOf va acc = .ok (ptr, i) ↔ mmu.walk va 1 mmu.rootTable = .ok (ptr, i) ∧
      allows acc (mmu.pteAt ptr) = true ∧
      ¬ (i ≠ 0 ∧ mmu.pteAt ptr >>> 10 &&& 0x3ff#32 ≠ 0#32) := by
  rw [leafOf, bind_eq_ok]
  constructor
  · rintro ⟨r, hw, h⟩
    split at h
    · cases h
    · next ha =>
      split at h
      · cases h
      · next hm =>
        cases h
        exact ⟨hw, by simpa using ha, hm⟩
  · rintro ⟨hw, ha, hm⟩
    exact ⟨_, hw, by rw [if_neg (by simpa using ha), if_neg hm]⟩

theorem translate_eq_ok {mmu mmu' : MMU} {va : U32} {acc : AccessType} {pa : U64}
    (hv : mmu.isVirtualAddressing = true) :
    (translate va acc).run mmu = .ok pa mmu' ↔ ∃ ptr i, mmu.leafOf va acc = .ok (ptr, i) ∧
      pa = leafAddr va (touch acc (mmu.pteAt ptr)) i ∧
      mmu' = mmu.writeMem (n := 4) ptr (touch acc (mmu.pteAt ptr)) := by
  rw [translate_run hv]
  cases mmu.leafOf va acc with
  | error e => simp
  | ok r =>
    obtain ⟨ptr, i⟩ := r
    simp [eq_comm]

theorem touch_high (acc : AccessType) (pte : U32) {k : ℕ} (hk : 8 ≤ k) :
    (touch acc pte).toNat / 2 ^ k = pte.toNat / 2 ^ k := by
  have h64 : 64 / 2 ^ k = 0 := Nat.div_eq_of_lt
    (lt_of_lt_of_le (by decide) (Nat.pow_le_pow_right (show 0 < 2 by decide) hk))
  have h128 : 128 / 2 ^ k = 0 := Nat.div_eq_of_lt
    (lt_of_lt_of_le (by decide) (Nat.pow_le_pow_right (show 0 < 2 by decide) hk))
  cases acc <;>
    simp only [touch, BitVec.toNat_or, BitVec.toNat_ofNat, Nat.reducePow, Nat.reduceMod,
      Nat.or_div_two_pow, h64, h128, Nat.or_zero]

theorem toNat_pa (pte : U32) : (pte.setWidth 64 <<< 2).toNat = pte.toNat * 4 := by
  rw [BitVec.toNat_shiftLeft, setWidth_toNat (by decide), Nat.shiftLeft_eq]
  omega

/-- The mask of the last line drops bit 12 of the frame address as well. -/
theorem leafAddr_zero (va pte : U32) :
    (leafAddr va pte 0).toNat = pte.toNat / 2 ^ 11 * 2 ^ 13 + va.toNat % 2 ^ 12 := by
  have hva : ((va &&& 0xfff#32).setWidth 64).toNat = va.toNat % 2 ^ 12 := by
    rw [setWidth_toNat (by decide), toNat_and_mask _ (k := 12) rfl]
  have hpa : (pte.setWidth 64 <<< 2 &&& (~~~1#64) <<< 12).toNat = pte.toNat / 2 ^ 11 * 2 ^ 13 := by
    rw [show (~~~1#64) <<< 12 = (~~~0#64) <<< 13 by decide, toNat_and_shiftLeft_not, toNat_pa]
    omega
  rw [leafAddr, if_neg (by decide), toNat_or_of_lt (k := 12), hva, hpa, Nat.add_comm]
  · rw [hva]
    exact Nat.mod_lt _ (by decide)
  · rw [hpa]
    omega

/-- And bit 22 for a leaf at level 1. -/
theorem leafAddr_one (va pte : U32) :
    (leafAddr va pte 1).toNat = pte.toNat / 2 ^ 21 * 2 ^ 23 + va.toNat % 2 ^ 22 := by
  have hva : ((va &&& 0x003fffff#32).setWidth 64).toNat = va.toNat % 2 ^ 22 := by
    rw [setWidth_toNat (by decide), toNat_and_mask _ (k := 22) rfl]
  have hpa : (pte.setWidth 64 <<< 2 &&& (~~~1#64) <<< 22).toNat = pte.toNat / 2 ^ 21 * 2 ^ 23 := by
    rw [show (~~~1#64) <<< 22 = (~~~0#64) <<< 23 by decide, toNat_and_shiftLeft_not, toNat_pa]
    omega
  rw [leafAddr, if_pos (by decide), toNat_or_of_lt (k := 22), hva, hpa, Nat.add_comm]
  · rw [hva]
    exact Nat.mod_lt _ (by decide)
  · rw [hpa]
    omega

theorem leafAddr_congr {va pte pte' : U32} (h : pte' >>> 10 = pte >>> 10) (i : ℕ) :
    leafAddr va pte' i = leafAddr va pte i := by
  have hn := congrArg BitVec.toNat h
  rw [BitVec.toNat_ushiftRight, BitVec.toNat_ushiftRight, Nat.shiftRight_eq_div_pow,
    Nat.shiftRight_eq_div_pow] at hn
  apply BitVec.eq_of_toNat_eq
  by_cases hi : i = 0
  · subst hi
    rw [leafAddr_zero, leafAddr_zero]
    omega
  · have h₁ : ∀ w, leafAddr va w i = leafAddr va w 1 := fun w ↦ by
      rw [leafAddr, leafAddr, if_pos hi, if_pos (by decide)]
    rw [h₁, h₁, leafAddr_one, leafAddr_one]
    omega

end RiscvSim.MMU
