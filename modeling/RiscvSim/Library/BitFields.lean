import Mathlib.Data.BitVec

namespace RiscvSim.BitFields

variable {m n v : ℕ}

theorem toNat_append (x : BitVec m) (y : BitVec n) :
    (x ++ y).toNat = x.toNat * 2 ^ n + y.toNat := by
  rw [BitVec.toNat_append, ← Nat.shiftLeft_add_eq_or_of_lt y.isLt, Nat.shiftLeft_eq]

theorem setWidth_toNat (h : n ≤ v) (x : BitVec n) : (x.setWidth v).toNat = x.toNat := by
  rw [BitVec.toNat_setWidth, Nat.mod_eq_of_lt (x.isLt.trans_le (Nat.pow_le_pow_right (by decide) h))]

/-- A field above another, put together with a shift and an or. -/
theorem setWidth_or_shiftLeft (h : m + n ≤ v) (x : BitVec m) (y : BitVec n) :
    y.setWidth v ||| x.setWidth v <<< n = (x ++ y).setWidth v := by
  have hx := x.isLt
  have hm : x.toNat * 2 ^ n < 2 ^ v :=
    calc x.toNat * 2 ^ n < 2 ^ m * 2 ^ n := Nat.mul_lt_mul_of_pos_right hx (Nat.two_pow_pos n)
      _ = 2 ^ (m + n) := (Nat.pow_add 2 m n).symm
      _ ≤ 2 ^ v := Nat.pow_le_pow_right (by decide) h
  apply BitVec.eq_of_toNat_eq
  rw [setWidth_toNat h, toNat_append, BitVec.toNat_or, BitVec.toNat_shiftLeft,
    setWidth_toNat (by omega), setWidth_toNat (by omega), Nat.shiftLeft_eq, Nat.mod_eq_of_lt hm,
    Nat.or_comm, ← Nat.shiftLeft_eq, Nat.shiftLeft_add_eq_or_of_lt y.isLt]

theorem setWidth_and_mask (h : n ≤ v) (k : ℕ) (hk : k ≤ n) (x : BitVec n) :
    x.setWidth v &&& BitVec.ofNat v (2 ^ k - 1) = (x.extractLsb' 0 k).setWidth v := by
  have hp : 2 ^ k ≤ 2 ^ v := Nat.pow_le_pow_right (by decide) (by omega)
  have h1 := Nat.two_pow_pos k
  apply BitVec.eq_of_toNat_eq
  rw [BitVec.toNat_and, setWidth_toNat h, setWidth_toNat (by omega), BitVec.toNat_ofNat,
    Nat.mod_eq_of_lt (by omega), Nat.and_two_pow_sub_one_eq_mod, BitVec.extractLsb'_toNat,
    Nat.shiftRight_zero]

theorem setWidth_ushiftRight (h : n ≤ v) (k l : ℕ) (hk : k + l = n) (x : BitVec n) :
    x.setWidth v >>> k = (x.extractLsb' k l).setWidth v := by
  have hx : x.toNat / 2 ^ k < 2 ^ l := by
    rw [Nat.div_lt_iff_lt_mul (Nat.two_pow_pos k), ← Nat.pow_add, Nat.add_comm, hk]
    exact x.isLt
  apply BitVec.eq_of_toNat_eq
  rw [BitVec.toNat_ushiftRight, setWidth_toNat h, setWidth_toNat (by omega),
    BitVec.extractLsb'_toNat, Nat.shiftRight_eq_div_pow, Nat.mod_eq_of_lt hx]

theorem extractLsb'_extractLsb' (x : BitVec v) {s t k l : ℕ} (h : t + k ≤ l) :
    (x.extractLsb' s l).extractLsb' t k = x.extractLsb' (s + t) k := by
  apply BitVec.eq_of_getLsbD_eq
  intro i hi
  simp only [BitVec.getLsbD_extractLsb', hi, decide_true, Bool.true_and, Nat.add_assoc,
    show t + i < l by omega]

theorem msb_iff (x : BitVec (n + 1)) (h : n < v) :
    x.setWidth v &&& 1#v <<< n ≠ 0 ↔ x.msb = true := by
  have hm : x.msb = x.getLsbD n := by simp [BitVec.msb_eq_getLsbD_last]
  have hbit : ∀ i, (x.setWidth v &&& 1#v <<< n).getLsbD i = (decide (i = n) && x.getLsbD n) := by
    intro i
    by_cases hin : i = n
    · subst hin; simp [h]
    · have hz : ¬ (n ≤ i ∧ i - n = 0) := by omega
      simp only [BitVec.getLsbD_and, BitVec.getLsbD_setWidth, BitVec.getLsbD_shiftLeft,
        BitVec.getLsbD_one, hin, decide_false, Bool.false_and, Bool.and_eq_false_imp]
      intro _ _
      grind
  rw [hm]
  constructor
  · intro hne
    by_contra hx
    refine hne (BitVec.eq_of_getLsbD_eq fun i _ ↦ ?_)
    rw [hbit, Bool.eq_false_iff.mpr hx, Bool.and_false]
    exact BitVec.getLsbD_zero.symm
  · intro hx h0
    have hb := hbit n
    rw [h0, hx, decide_eq_true rfl] at hb
    exact absurd (BitVec.getLsbD_zero.symm.trans hb) (by decide)

/-- Filling the bits above `n` with copies of bit `n` is sign extension. -/
theorem fill_eq_signExtend (h : n < v) (x : BitVec (n + 1)) :
    (if x.setWidth v &&& 1#v <<< n ≠ 0 then x.setWidth v ||| (~~~0#v) <<< n else x.setWidth v) =
      x.signExtend v := by
  have hl : x.msb = x.getLsbD n := by simp [BitVec.msb_eq_getLsbD_last]
  split
  · next hs =>
    have hm := (msb_iff x h).mp hs
    ext i hi
    by_cases hin : i < n + 1
    · by_cases hi' : i < n
      · simp [BitVec.getElem_signExtend, hin, hi']
      · obtain rfl : i = n := by omega
        have hx : x[i] = true := by simpa [hm] using hl.symm
        simp [BitVec.getElem_signExtend, hx]
    · have hi' : ¬ i < n := by omega
      simp [BitVec.getElem_signExtend, hin, hm, hi']
  · next hs =>
    have hm : x.msb = false := by simpa using mt (msb_iff x h).mpr hs
    ext i hi
    by_cases hin : i < n + 1
    · simp [BitVec.getElem_signExtend, hin]
    · simp [BitVec.getElem_signExtend, hin, hm, BitVec.getLsbD_of_ge x i (by omega)]

/-- The bits from `k` up, cut out in place. -/
theorem toNat_and_shiftLeft_not (x : BitVec v) (k : ℕ) :
    (x &&& (~~~0#v) <<< k).toNat = x.toNat / 2 ^ k * 2 ^ k := by
  have hx : x &&& (~~~0#v) <<< k = (x >>> k) <<< k := by
    ext i hi
    by_cases hk : i < k
    · simp [hk]
    · simp [hk, show k + (i - k) = i by omega, BitVec.getLsbD_eq_getElem hi]
  rw [hx, BitVec.toNat_shiftLeft, BitVec.toNat_ushiftRight, Nat.shiftRight_eq_div_pow,
    Nat.shiftLeft_eq, Nat.mod_eq_of_lt ((Nat.div_mul_le_self _ _).trans_lt x.isLt)]

theorem toNat_and_mask (x : BitVec v) {m : BitVec v} {k : ℕ} (hm : m.toNat = 2 ^ k - 1) :
    (x &&& m).toNat = x.toNat % 2 ^ k := by
  rw [BitVec.toNat_and, hm, Nat.and_two_pow_sub_one_eq_mod]

theorem toNat_or_of_lt {x y : BitVec v} {k : ℕ} (hx : x.toNat < 2 ^ k) (hy : y.toNat % 2 ^ k = 0) :
    (x ||| y).toNat = x.toNat + y.toNat := by
  obtain ⟨q, hq⟩ := Nat.dvd_of_mod_eq_zero hy
  rw [BitVec.toNat_or, hq, Nat.mul_comm, ← Nat.shiftLeft_eq, Nat.or_comm,
    ← Nat.shiftLeft_add_eq_or_of_lt hx, Nat.add_comm]

theorem toInt_append_zero (x : BitVec n) : (x ++ 0#1).toInt = x.toInt * 2 := by
  have hx : (x ++ 0#1).toNat = x.toNat * 2 := by
    rw [toNat_append]
    rfl
  rw [BitVec.toInt_eq_toNat_cond, BitVec.toInt_eq_toNat_cond, hx, Nat.pow_succ]
  split <;> split <;> push_cast <;> omega

/-- An offset in units of two, sign-extended and doubled. -/
theorem signExtend_append_zero (x : BitVec n) : (x ++ 0#1).signExtend v = x.signExtend v * 2 := by
  rw [BitVec.signExtend, BitVec.signExtend, toInt_append_zero, BitVec.ofInt_mul]
  rfl

theorem append_zero (h : m + n ≤ v) (x : BitVec m) :
    (x ++ 0#n).setWidth v = x.setWidth v <<< n := by
  rw [← setWidth_or_shiftLeft h, BitVec.setWidth_zero, BitVec.zero_or]

theorem setWidth_setWidth_self (h : m ≤ n) (x : BitVec m) : (x.setWidth n).setWidth m = x := by
  rw [BitVec.setWidth_setWidth_of_le _ h, BitVec.setWidth_eq]

theorem setWidth_signExtend_self (h : m ≤ n) (x : BitVec m) : (x.signExtend n).setWidth m = x := by
  ext i hi
  rw [BitVec.getElem_setWidth, BitVec.getLsbD_signExtend, if_pos hi]
  simp [hi, Nat.lt_of_lt_of_le hi h]

/-- An arithmetic shift is a logical one with the sign copied into the bits above. -/
theorem ushiftRight_or_mask (x : BitVec v) (h : x.msb = true) (k : ℕ) :
    x >>> k ||| ~~~(~~~0#v >>> k) = x.sshiftRight k := by
  rw [BitVec.sshiftRight_eq_of_msb_true h]
  ext i hi
  by_cases hk : k + i < v
  · simp [hk]
  · simp [hk]

end RiscvSim.BitFields
