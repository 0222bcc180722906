import RiscvSim.Library.X86

namespace RiscvSim.X86

open Results

variable {F σ ε : Type} {env : Env F σ ε}

/-- Code that runs from its first item to its last. -/
def block (env : Env F σ ε) : List (Item F) → EStateM ε (Machine σ) Unit
  | [] => pure ()
  | .label _ :: rest => block env rest
  | .inst i :: rest => do
    exec env i
    block env rest

theorem block_append {c d : List (Item F)} {m m' : Machine σ}
    (h : (block env c).run m = .ok () m') : (block env (c ++ d)).run m = (block env d).run m' := by
  induction c generalizing m with
  | nil =>
    cases h
    rfl
  | cons item c ih =>
    cases item with
    | label n => exact ih h
    | inst i =>
      obtain ⟨_, m₁, hi, hc⟩ := run_bind_eq_ok.mp h
      rw [List.cons_append, block, run_bind_of_ok hi]
      exact ih hc

/-- The operands an instruction names. -/
def Inst.operands : Inst F → List Operand
  | .bin _ dst src => [dst, src]
  | .set _ dst | .pop dst => [dst]
  | .mul src | .push src => [src]
  | .call _ | .jcc .. | .jmp _ | .ret => []

/-- A memory operand outside the object a register points to. -/
def Operand.outside (base : Gp) : Operand → Option Mem
  | .mem a => if a.base = base then none else some a
  | _ => none

def Item.outside (base : Gp) : Item F → List Mem
  | .label _ => []
  | .inst i => i.operands.filterMap (Operand.outside base)

/-- The memory a block gets at outside the object `base` points to: addresses and sizes in
bytes, in order, up to the instruction that stops it. -/
def reached (env : Env F σ ε) (base : Gp) : List (Item F) → Machine σ → List (BitVec 64 × ℕ)
  | [], _ => []
  | .label _ :: rest, m => reached env base rest m
  | .inst i :: rest, m =>
    ((Item.inst i).outside base).map (fun a ↦ (m.addr a, a.width / 8)) ++
      match (exec env i).run m with
      | .ok _ m' => reached env base rest m'
      | .error _ _ => []

theorem reached_append {base : Gp} {c d : List (Item F)} {m m' : Machine σ}
    (h : (block env c).run m = .ok () m') :
    reached env base (c ++ d) m = reached env base c m ++ reached env base d m' := by
  induction c generalizing m with
  | nil =>
    cases h
    rfl
  | cons item c ih =>
    cases item with
    | label n => exact ih h
    | inst i =>
      obtain ⟨_, m₁, hi, hc⟩ := run_bind_eq_ok.mp h
      simp only [List.cons_append, reached, hi]
      rw [ih hc, List.append_assoc]

theorem reached_of_outside {base : Gp} {c : List (Item F)} (h : ∀ item ∈ c, item.outside base = [])
    (m : Machine σ) : reached env base c m = [] := by
  induction c generalizing m with
  | nil => rfl
  | cons item c ih =>
    have hc := ih fun item' hi ↦ h item' (List.mem_cons_of_mem _ hi)
    cases item with
    | label n => exact hc m
    | inst i =>
      rw [reached, h _ List.mem_cons_self]
      cases hi : (exec env i).run m with
      | ok u m' => exact hc m'
      | error e m' => rfl

/-- A block in front of other code: `run` goes through it and on. -/
theorem run_block {spent : ε} {code c rest : List (Item F)} {m m' : Machine σ}
    (h : (block env c).run m = .ok () m') (fuel : ℕ) :
    (run env spent code (fuel + c.length) (c ++ rest)).run m = (run env spent code fuel rest).run m' := by
  induction c generalizing m with
  | nil =>
    cases h
    rfl
  | cons item c ih =>
    rw [List.length_cons, ← Nat.add_assoc, List.cons_append]
    cases item with
    | label n => exact ih h
    | inst i =>
      obtain ⟨_, m₁, hi, hc⟩ := run_bind_eq_ok.mp h
      rw [← ih hc]
      cases i with
      | jcc | jmp | ret => cases hi
      | bin | set | mul | push | pop | call =>
        rw [run, run_bind_of_ok hi]
        all_goals simp

theorem exec_bin {m m' : Machine σ} {id : Id} {dst src : Operand}
    (h : execBin env m id dst src = .ok m') : (exec env (.bin id dst src)).run m = .ok () m' := by
  rw [exec, run_bind_of_ok (EStateM.run_get m)]
  dsimp only
  rw [h]
  rfl

theorem exec_add {m m' : Machine σ} {dst src : Operand} {w : ℕ} {a b : BitVec w}
    (hw : binWidth dst src = some w) (ha : m.value env w dst = .ok a) (hb : m.value env w src = .ok b)
    (h : m.assign env (a + b) dst = .ok m') :
    (exec env (.bin .add dst src)).run m = .ok () { m' with flags := some (arith .add a b).2 } := by
  refine exec_bin ?_
  simp only [execBin, hw, ha, hb, bind, Except.bind]
  change (m.assign env (a + b) dst >>= fun m' ↦ _) = _
  rw [h]
  rfl

theorem exec_mov {m m' : Machine σ} {dst src : Operand} {w : ℕ} {a : BitVec w}
    (hw : binWidth dst src = some w) (ha : m.value env w src = .ok a)
    (h : m.assign env a dst = .ok m') : (exec env (.bin .mov dst src)).run m = .ok () m' := by
  refine exec_bin ?_
  simp only [execBin, hw, ha, bind, Except.bind]
  exact h

theorem exec_set {m m' : Machine σ} {c : Cond} {dst : Operand}
    (h : execSet env m c dst = .ok m') : (exec env (.set c dst)).run m = .ok () m' := by
  rw [exec, run_bind_of_ok (EStateM.run_get m)]
  dsimp only
  rw [h]
  rfl

theorem exec_mul {m m' : Machine σ} {src : Operand} (h : execMul env m src = .ok m') :
    (exec env (.mul src)).run m = .ok () m' := by
  rw [exec, run_bind_of_ok (EStateM.run_get m)]
  dsimp only
  rw [h]
  rfl

namespace Machine

variable (m : Machine σ)

theorem get_set_self (r : Gp) (v : BitVec 32) : (m.set r v).get r 32 = v := by
  simp [get, set]

theorem get_set_of_ne {r r' : Gp} (h : r' ≠ r) {w : ℕ} (v : BitVec w) (w' : ℕ) :
    (m.set r v).get r' w' = m.get r' w' := by
  rw [get, set]
  dsimp only
  rw [Function.update_of_ne h]
  rfl

theorem regs_set_self (r : Gp) {w : ℕ} (h : 32 ≤ w) (v : BitVec w) :
    (m.set r v).regs r = v.setWidth 64 := by
  rw [set]
  dsimp only
  rw [Function.update_self, if_pos h]

theorem regs_set_of_ne {r r' : Gp} (h : r' ≠ r) {w : ℕ} (v : BitVec w) :
    (m.set r v).regs r' = m.regs r' := Function.update_of_ne h _ _

/-- The flags alone. -/
def withFlags (f : Option Flags) : Machine σ := { m with flags := f }

end Machine

/-- The sign of a difference, corrected by the overflow, is the signed order. -/
theorem holds_l (a b : BitVec 32) : Cond.l.holds (arith .cmp a b).2 = a.slt b := by
  have hsub : (a - b).toInt = (a.toInt - b.toInt).bmod (2 ^ 32) := BitVec.toInt_sub
  have hla := BitVec.le_toInt a
  have hua := BitVec.toInt_lt (x := a)
  have hlb := BitVec.le_toInt b
  have hub := BitVec.toInt_lt (x := b)
  have hover : a.ssubOverflow b = decide (2147483648 ≤ a.toInt - b.toInt ∨
      a.toInt - b.toInt < -2147483648) := by
    simp [BitVec.ssubOverflow]
  rw [Int.bmod_def] at hsub
  simp only [Nat.reduceSub, Nat.reducePow, Int.reducePow] at hsub hla hua hlb hub
  simp only [Cond.holds, arith, BitVec.msb_eq_toInt, hover, BitVec.slt_eq_decide]
  rw [Bool.eq_iff_iff]
  simp only [bne_iff_ne, ne_eq, decide_eq_true_eq, decide_eq_decide]
  split at hsub <;> omega

theorem holds_ge (a b : BitVec 32) : Cond.ge.holds (arith .cmp a b).2 = b.sle a := by
  have h := holds_l a b
  have hnot : Cond.ge.holds (arith .cmp a b).2 = !Cond.l.holds (arith .cmp a b).2 := by
    simp [Cond.holds, bne]
  rw [hnot, h, BitVec.sle_eq_not_slt]

theorem holds_b (a b : BitVec 32) : Cond.b.holds (arith .cmp a b).2 = a.ult b := by
  rw [Bool.eq_iff_iff]
  simp [Cond.holds, arith, BitVec.usubOverflow, BitVec.ult]

theorem holds_ae (a b : BitVec 32) : Cond.ae.holds (arith .cmp a b).2 = b.ule a := by
  have h := holds_b a b
  rw [Cond.holds] at h
  rw [Cond.holds, h, BitVec.ule_eq_not_ult]

theorem holds_e (a b : BitVec 32) : Cond.e.holds (arith .cmp a b).2 = (a == b) := by
  rw [Bool.eq_iff_iff]
  simp only [Cond.holds, arith, beq_iff_eq]
  exact ⟨fun h ↦ by simpa using congrArg (· + b) h, fun h ↦ by rw [h, BitVec.sub_self]⟩

theorem holds_ne (a b : BitVec 32) : Cond.ne.holds (arith .cmp a b).2 = (a != b) := by
  have h := holds_e a b
  rw [Cond.holds] at h
  rw [Cond.holds, h, bne]

section

variable {w : ℕ} (id : Id) (v : BitVec w)

theorem shift_zero : shift id v 0 = v := by
  cases id with
  | shl => exact BitVec.shiftLeft_zero v
  | shr => exact BitVec.ushiftRight_zero v
  | _ => exact BitVec.sshiftRight_zero

theorem shift_add (n n' : ℕ) : shift id v (n + n') = shift id (shift id v n) n' := by
  cases id with
  | shl => exact BitVec.shiftLeft_add v n n'
  | shr => exact BitVec.shiftRight_add v n n'
  | _ => exact BitVec.sshiftRight_add

/-- What no shift changes. -/
def Settled : Prop :=
  match id with
  | .shl | .shr => v = 0#w
  | _ => v = 0#w ∨ v = BitVec.allOnes w

theorem sshiftRight_allOnes (n : ℕ) : (BitVec.allOnes w).sshiftRight n = BitVec.allOnes w := by
  ext i hi
  rw [BitVec.getElem_sshiftRight]
  by_cases h : n + i < w
  · simp [h]
  · simp [h, BitVec.msb_allOnes (show 0 < w by omega)]

theorem Settled.shift_eq (h : Settled id v) (n : ℕ) : shift id v n = v := by
  cases id with
  | shl =>
    rw [show v = 0#w from h]
    exact BitVec.zero_shiftLeft n
  | shr =>
    rw [show v = 0#w from h]
    exact BitVec.zero_ushiftRight
  | _ =>
    rcases (show v = 0#w ∨ v = BitVec.allOnes w from h) with rfl | rfl
    · exact BitVec.zero_sshiftRight
    · exact sshiftRight_allOnes n

/-- A long shift leaves nothing to shift. -/
theorem settled_shift {n : ℕ} (h : w ≤ n) : Settled id (shift id v n) := by
  cases id with
  | shl => exact BitVec.shiftLeft_eq_zero h
  | shr => exact BitVec.ushiftRight_eq_zero h
  | _ =>
    cases hm : v.msb with
    | false =>
      left
      change v.sshiftRight n = 0#w
      rw [BitVec.sshiftRight_eq_of_msb_false hm]
      exact BitVec.ushiftRight_eq_zero h
    | true =>
      right
      change v.sshiftRight n = BitVec.allOnes w
      rw [BitVec.sshiftRight_eq_of_msb_true hm, BitVec.ushiftRight_eq_zero h]
      exact BitVec.not_zero

theorem shift_eq_self_iff {n : ℕ} : shift id v n = v ↔ n = 0 ∨ Settled id v := by
  constructor
  · intro h
    rw [or_iff_not_imp_left]
    intro hn
    have hmany : ∀ k, shift id v (n * k) = v := by
      intro k
      induction k with
      | zero => exact shift_zero id v
      | succ k ih => rw [Nat.mul_succ, shift_add, ih, h]
    have hlong := settled_shift id v (n := n * w) (Nat.le_mul_of_pos_left w (Nat.pos_of_ne_zero hn))
    rwa [hmany] at hlong
  · rintro (rfl | h)
    · exact shift_zero id v
    · exact h.shift_eq id v n

theorem shift_eq_shift_iff (n n' : ℕ) :
    shift id v n = shift id v n' ↔ n = n' ∨ Settled id (shift id v (min n n')) := by
  rcases Nat.le_total n n' with h | h
  · obtain ⟨k, rfl⟩ := Nat.exists_eq_add_of_le h
    have hk : n = n + k ↔ k = 0 := by omega
    rw [Nat.min_eq_left h, hk, shift_add, eq_comm, shift_eq_self_iff]
  · obtain ⟨k, rfl⟩ := Nat.exists_eq_add_of_le h
    have hk : n' + k = n' ↔ k = 0 := by omega
    rw [Nat.min_eq_right h, hk, shift_add, shift_eq_self_iff]

end

end RiscvSim.X86
