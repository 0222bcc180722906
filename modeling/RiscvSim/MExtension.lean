import RiscvSim.Rv32iStep

namespace RiscvSim

open Ir Results

namespace Rv32m

/-- The halves of an exact product. -/
def lowHalf (p : ℤ) : U32 := BitVec.ofInt 32 p

def highHalf (p : ℤ) : U32 := BitVec.ofInt 32 (p / 2 ^ 32)

/-- Division that rounds towards zero. -/
structure Truncates (a b q r : ℤ) : Prop where
  exact : a = q * b + r
  small : |r| < |b|
  sign : r ≠ 0 → r.sign = a.sign

/-- The quotient and the remainder of the manual, for operands read by `value`. -/
structure Divides (value : U32 → ℤ) (a b q r : U32) : Prop where
  zero : b = 0 → q = BitVec.allOnes 32 ∧ r = a
  overflow : value a = -2 ^ 31 → value b = -1 → value q = -2 ^ 31 ∧ r = 0
  truncates : b ≠ 0 → ¬ (value a = -2 ^ 31 ∧ value b = -1) →
    Truncates (value a) (value b) (value q) (value r)

def unsigned (x : U32) : ℤ := x.toNat

theorem truncates_tdiv (a : ℤ) {b : ℤ} (hb : b ≠ 0) : Truncates a b (a.tdiv b) (a.tmod b) where
  exact := (Int.tdiv_mul_add_tmod a b).symm
  small := by
    have hlt : a.natAbs % b.natAbs < b.natAbs := Nat.mod_lt _ (Int.natAbs_pos.mpr hb)
    rw [Int.abs_eq_natAbs, Int.abs_eq_natAbs, Int.natAbs_tmod]
    exact_mod_cast hlt
  sign hr := by
    rw [Int.sign_tmod, if_neg]
    intro hd
    apply hr
    exact Int.tmod_eq_zero_of_dvd hd

/-- A 64-bit product holds the exact one modulo `2 ^ 64`. -/
theorem high_ofInt (x y : ℤ) :
    ExecInst.high (BitVec.ofInt 64 x) (BitVec.ofInt 64 y) = highHalf (x * y) := by
  have hlt := Int.emod_lt_of_pos (x * y) (show 0 < 2 ^ 64 by decide)
  have hge := Int.emod_nonneg (x * y) (show (2 ^ 64 : ℤ) ≠ 0 by decide)
  apply BitVec.eq_of_toNat_eq
  rw [ExecInst.high, highHalf, ← BitVec.ofInt_mul, BitVec.toNat_setWidth, BitVec.toNat_ushiftRight,
    BitVec.toNat_ofInt, BitVec.toNat_ofInt, Nat.shiftRight_eq_div_pow]
  push_cast at hlt hge ⊢
  generalize x * y = p at hlt hge ⊢
  omega

theorem signExtend_eq_ofInt (a : U32) : a.signExtend 64 = BitVec.ofInt 64 a.toInt := rfl

theorem setWidth_eq_ofInt (a : U32) : a.setWidth 64 = BitVec.ofInt 64 (unsigned a) := by
  rw [unsigned, BitVec.ofInt_natCast, BitVec.ofNat_toNat]

theorem mul_eq_lowHalf (a b : U32) : a * b = lowHalf (a.toInt * b.toInt) := by
  rw [lowHalf, BitVec.ofInt_mul, BitVec.ofInt_toInt, BitVec.ofInt_toInt]

theorem toInt_eq_min_iff {a : U32} : a.toInt = -2 ^ 31 ↔ a = 0x80000000 := by
  constructor
  · intro h
    apply BitVec.eq_of_toInt_eq
    rw [h]
    rfl
  · intro h
    rw [h]
    rfl

theorem toInt_eq_neg_one_iff {b : U32} : b.toInt = -1 ↔ b = -1 := by
  constructor
  · intro h
    apply BitVec.eq_of_toInt_eq
    rw [h]
    rfl
  · intro h
    rw [h]
    rfl

theorem toInt_ne_zero {b : U32} (hb : b ≠ 0) : b.toInt ≠ 0 := by
  intro h
  apply hb
  apply BitVec.eq_of_toInt_eq
  rw [h]
  rfl

theorem divides_signed (a b : U32) : Divides BitVec.toInt a b
    (if b = 0 then -1 else if b = -1 ∧ a = 0x80000000 then 0x80000000 else a.sdiv b)
    (if b = 0 then a else if b = -1 ∧ a = 0x80000000 then 0 else a.srem b) where
  zero hb := by simp [hb]
  overflow ha hb := by
    rw [toInt_eq_min_iff] at ha
    rw [toInt_eq_neg_one_iff] at hb
    subst ha hb
    decide
  truncates hb hm := by
    rw [toInt_eq_min_iff, toInt_eq_neg_one_iff] at hm
    have hmin : a ≠ BitVec.intMin 32 ∨ b ≠ -1#32 := by
      by_contra h
      push Not at h
      exact hm h
    rw [if_neg hb, if_neg hb, if_neg fun h ↦ hm h.symm, if_neg fun h ↦ hm h.symm,
      BitVec.toInt_sdiv_of_ne_or_ne a b hmin, BitVec.toInt_srem]
    exact truncates_tdiv _ (toInt_ne_zero hb)

theorem divides_unsigned (a b : U32) : Divides unsigned a b
    (if b ≠ 0 then a / b else 0xffffffff) (if b ≠ 0 then a % b else a) where
  zero hb := by
    rw [if_neg (not_not.mpr hb), if_neg (not_not.mpr hb)]
    exact ⟨rfl, rfl⟩
  overflow ha := by
    have hnonneg : 0 ≤ unsigned a := Int.natCast_nonneg _
    omega
  truncates hb _ := by
    have hne : unsigned b ≠ 0 := by
      intro h
      apply hb
      exact BitVec.eq_of_toNat_eq (Int.natCast_eq_zero.mp h)
    have hq : unsigned (a / b) = (unsigned a).tdiv (unsigned b) := by
      rw [unsigned, BitVec.toNat_udiv, Int.natCast_ediv]
      exact (Int.tdiv_eq_ediv_of_nonneg (Int.natCast_nonneg _)).symm
    have hr : unsigned (a % b) = (unsigned a).tmod (unsigned b) := by
      rw [unsigned, BitVec.toNat_umod, Int.natCast_emod]
      exact (Int.tmod_eq_emod_of_nonneg (Int.natCast_nonneg _)).symm
    rw [if_pos hb, if_pos hb, hq, hr]
    exact truncates_tdiv _ hne

end Rv32m

open ExecInst Rv32m

/-- The M extension is exact at every pair of operands, and none of its divisions stops the
run as an undefined one. -/
theorem mExtension_exact (inst : Inst) (s : State) :
    let a := s.regs.get inst.getRs1
    let b := s.regs.get inst.getRs2
    Writes inst s (execMUL inst) (lowHalf (a.toInt * b.toInt)) ∧
    Writes inst s (execMULH inst) (highHalf (a.toInt * b.toInt)) ∧
    Writes inst s (execMULHSU inst) (highHalf (a.toInt * unsigned b)) ∧
    Writes inst s (execMULHU inst) (highHalf (unsigned a * unsigned b)) ∧
    (∃ q r, Writes inst s (execDIV inst) q ∧ Writes inst s (execREM inst) r ∧
      Divides BitVec.toInt a b q r) ∧
    ∃ q r, Writes inst s (execDIVU inst) q ∧ Writes inst s (execREMU inst) r ∧
      Divides unsigned a b q r := by
  intro a b
  have hlow : a * b = lowHalf (a.toInt * b.toInt) := mul_eq_lowHalf a b
  have hsigned : high (a.signExtend 64) (b.signExtend 64) = highHalf (a.toInt * b.toInt) := by
    rw [signExtend_eq_ofInt, signExtend_eq_ofInt, high_ofInt]
  have hmixed : high (a.signExtend 64) (b.setWidth 64) = highHalf (a.toInt * unsigned b) := by
    rw [signExtend_eq_ofInt, setWidth_eq_ofInt, high_ofInt]
  have hunsigned : high (a.setWidth 64) (b.setWidth 64) = highHalf (unsigned a * unsigned b) := by
    rw [setWidth_eq_ofInt, setWidth_eq_ofInt, high_ofInt]
  refine ⟨?_, ?_, ?_, ?_, ⟨_, _, ?_, ?_, divides_signed a b⟩, _, _, ?_, ?_, divides_unsigned a b⟩
  · exact regType_run inst (congrArg Except.ok hlow)
  · exact regType_run inst (congrArg Except.ok hsigned)
  · exact regType_run inst (congrArg Except.ok hmixed)
  · exact regType_run inst (congrArg Except.ok hunsigned)
  · exact regType_run inst (signed_guarded _ a b _ _)
  · exact regType_run inst (signed_guarded _ a b _ _)
  · exact regType_run inst (unsigned_guarded _ a b _)
  · exact regType_run inst (unsigned_guarded _ a b _)

end RiscvSim
