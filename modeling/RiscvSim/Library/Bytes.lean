import Mathlib.Data.BitVec

namespace RiscvSim.Bytes

variable {n : ℕ}

/-- The `n` bytes from `a` on, the lowest address in the lowest bits. -/
def read (mem : ℕ → BitVec 8) (a : ℕ) : (n : ℕ) → BitVec (8 * n)
  | 0 => 0#0
  | n + 1 => read mem (a + 1) n ++ mem a

def byte (v : BitVec (8 * n)) (i : ℕ) : BitVec 8 := v.extractLsb' (8 * i) 8

def write (mem : ℕ → BitVec 8) (a : ℕ) (v : BitVec (8 * n)) : ℕ → BitVec 8 := fun b ↦
  if a ≤ b ∧ b < a + n then byte v (b - a) else mem b

theorem byte_read (mem : ℕ → BitVec 8) (a : ℕ) {i : ℕ} (h : i < n) :
    byte (read mem a n) i = mem (a + i) := by
  induction n generalizing a i with
  | zero => omega
  | succ n ih =>
    unfold byte read
    cases i with
    | zero =>
      rw [Nat.mul_zero]
      exact BitVec.extractLsb'_append_eq_right
    | succ i =>
      have hi := ih (a + 1) (show i < n by omega)
      rw [show a + 1 + i = a + (i + 1) by omega] at hi
      have hl := @BitVec.extractLsb'_append_eq_of_le _ _ (read mem (a + 1) n) (mem a) _ 8
        (show 8 ≤ 8 * (i + 1) by omega)
      rw [show 8 * (i + 1) - 8 = 8 * i by omega] at hl
      exact hl.trans hi

theorem eq_of_byte {v w : BitVec (8 * n)} (h : ∀ i < n, byte v i = byte w i) : v = w := by
  apply BitVec.eq_of_getLsbD_eq
  intro k hk
  have hb := congrArg (fun x ↦ x.getLsbD (k % 8)) (h (k / 8) (by omega))
  simp only [byte, BitVec.getLsbD_extractLsb'] at hb
  rw [show 8 * (k / 8) + k % 8 = k by omega] at hb
  simpa [Nat.mod_lt] using hb

theorem read_congr {mem mem' : ℕ → BitVec 8} {a : ℕ} (h : ∀ b, a ≤ b → b < a + n → mem b = mem' b) :
    read mem a n = read mem' a n := by
  apply eq_of_byte
  intro i hi
  rw [byte_read mem a hi, byte_read mem' a hi, h (a + i) (by omega) (by omega)]

theorem read_write_self (mem : ℕ → BitVec 8) (a : ℕ) (v : BitVec (8 * n)) :
    read (write mem a v) a n = v := by
  apply eq_of_byte
  intro i hi
  rw [byte_read _ a hi, write, if_pos (by omega), show a + i - a = i by omega]

theorem write_of_lt (mem : ℕ → BitVec 8) {a b : ℕ} (v : BitVec (8 * n)) (h : b < a) :
    write mem a v b = mem b := if_neg (by omega)

theorem write_of_ge (mem : ℕ → BitVec 8) {a b : ℕ} (v : BitVec (8 * n)) (h : a + n ≤ b) :
    write mem a v b = mem b := if_neg (by omega)

/-- A read beside the written bytes does not see them. -/
theorem read_write_of_disjoint (mem : ℕ → BitVec 8) {m a b : ℕ} (v : BitVec (8 * m))
    (h : b + n ≤ a ∨ a + m ≤ b) : read (write mem a v) b n = read mem b n :=
  read_congr fun c h₁ h₂ ↦ if_neg (by omega)

/-- Writes beside each other commute. -/
theorem write_comm {k : ℕ} (mem : ℕ → BitVec 8) {a b : ℕ} (v : BitVec (8 * n)) (w : BitVec (8 * k))
    (h : a + n ≤ b ∨ b + k ≤ a) : write (write mem a v) b w = write (write mem b w) a v := by
  funext x
  unfold write
  by_cases ha : a ≤ x ∧ x < a + n
  · rw [if_neg (by omega), if_pos ha, if_pos ha]
  · by_cases hb : b ≤ x ∧ x < b + k
    · rw [if_pos hb, if_neg ha, if_pos hb]
    · rw [if_neg hb, if_neg ha, if_neg ha, if_neg hb]

theorem write_read_self (mem : ℕ → BitVec 8) (a : ℕ) : write mem a (read mem a n) = mem := by
  funext b
  unfold write
  split
  · next h => rw [byte_read mem a (by omega), show a + (b - a) = b by omega]
  · rfl

/-- A write that only sets bits. -/
theorem or_write_or (mem : ℕ → BitVec 8) (a : ℕ) (mask : BitVec (8 * n)) (b : ℕ) :
    mem b ||| write mem a (read mem a n ||| mask) b = write mem a (read mem a n ||| mask) b := by
  unfold write
  split
  · next h =>
    have hb := byte_read mem a (show b - a < n by omega)
    rw [show a + (b - a) = b by omega] at hb
    have hor : byte (read mem a n ||| mask) (b - a) = mem b ||| byte mask (b - a) := by
      rw [← hb, byte, byte, byte, BitVec.extractLsb'_or]
    rw [hor, ← BitVec.or_assoc, BitVec.or_self]
  · exact BitVec.or_self

end RiscvSim.Bytes
