import RiscvSim.Library.X86Block
import RiscvSim.Library.Frames

namespace RiscvSim.X86

open Results

variable {F σ ε : Type} {env : Env F σ ε} {spent : ε}

/-- An instruction with a destination assigns to it or leaves it alone; the flags may change. -/
inductive Assigns (env : Env F σ ε) (dst : Operand) (m : Machine σ) : Machine σ → Prop
  | none (f : Option Flags) : Assigns env dst m (m.withFlags f)
  | some {w : ℕ} (v : BitVec w) {m' : Machine σ} (h : m.assign env v dst = .ok m')
      (f : Option Flags) : Assigns env dst m (m'.withFlags f)

theorem Assigns.of_assign {dst : Operand} {m m' : Machine σ} {w : ℕ} {v : BitVec w}
    (h : m.assign env v dst = .ok m') : Assigns env dst m m' := .some v h m'.flags

theorem execBin_assigns {m m' : Machine σ} {id : Id} {dst src : Operand}
    (h : execBin env m id dst src = .ok m') : Assigns env dst m m' := by
  unfold execBin at h
  cases id with
  | movsx | movzx =>
    cases hn : narrow src with
    | none =>
      simp only [hn] at h
      cases h
    | some v =>
      cases hd : dstWidth dst with
      | none =>
        simp only [hn, hd] at h
        cases h
      | some w =>
        simp only [hn, hd] at h
        obtain ⟨b, -, ha⟩ := bind_eq_ok.mp h
        exact .of_assign ha
  | shl | shr | sar =>
    cases hd : dstWidth dst with
    | none =>
      simp only [hd] at h
      cases h
    | some w =>
      simp only [hd] at h
      obtain ⟨a, -, h₁⟩ := bind_eq_ok.mp h
      obtain ⟨n, -, h₂⟩ := bind_eq_ok.mp h₁
      by_cases hz : n.toNat % (if w = 64 then 64 else 32) = 0
      · rw [if_pos hz] at h₂
        exact .of_assign h₂
      · rw [if_neg hz] at h₂
        obtain ⟨m₁, ha, h₃⟩ := bind_eq_ok.mp h₂
        cases h₃
        exact .some _ ha _
  | mov =>
    cases hw : binWidth dst src with
    | none =>
      simp only [hw] at h
      cases h
    | some w =>
      simp only [hw] at h
      obtain ⟨b, -, ha⟩ := bind_eq_ok.mp h
      exact .of_assign ha
  | cmp =>
    cases hw : binWidth dst src with
    | none =>
      simp only [hw] at h
      cases h
    | some w =>
      simp only [hw] at h
      obtain ⟨a, -, h₁⟩ := bind_eq_ok.mp h
      obtain ⟨b, -, h₂⟩ := bind_eq_ok.mp h₁
      cases h₂
      exact .none _
  | add | sub | and | or | xor =>
    cases hw : binWidth dst src with
    | none =>
      simp only [hw] at h
      cases h
    | some w =>
      simp only [hw] at h
      obtain ⟨a, -, h₁⟩ := bind_eq_ok.mp h
      obtain ⟨b, -, h₂⟩ := bind_eq_ok.mp h₁
      obtain ⟨m₁, ha, h₃⟩ := bind_eq_ok.mp h₂
      cases h₃
      exact .some _ ha _

theorem execSet_assigns {m m' : Machine σ} {c : Cond} {dst : Operand}
    (h : execSet env m c dst = .ok m') : Assigns env dst m m' := by
  unfold execSet at h
  cases hf : m.flags with
  | none =>
    simp only [hf] at h
    cases h
  | some f =>
    simp only [hf] at h
    exact .of_assign h

theorem execMul_ok {m m' : Machine σ} {src : Operand} (h : execMul env m src = .ok m') :
    ∃ (w : ℕ) (p q : BitVec w), m' = { (m.set .rax p).set .rdx q with flags := none } := by
  unfold execMul at h
  cases hw : dstWidth src with
  | none =>
    simp only [hw] at h
    cases h
  | some w =>
    simp only [hw] at h
    obtain ⟨b, -, h₁⟩ := bind_eq_ok.mp h
    cases h₁
    exact ⟨w, _, _, rfl⟩

theorem execPush_ok {m m' : Machine σ} {src : Operand} (h : execPush env m src = .ok m') :
    ∃ v, m' = { m with stack := v :: m.stack } := by
  cases src with
  | reg r w =>
    cases h
    exact ⟨m.regs r, rfl⟩
  | mem a => cases h
  | imm v => cases h

theorem execPop_ok {m m' : Machine σ} {dst : Operand} (h : execPop env m dst = .ok m') :
    ∃ r w v stack, dst = .reg r w ∧ m' = { m.set r (v : BitVec 64) with stack := stack } := by
  cases dst with
  | reg r w =>
    unfold execPop at h
    cases hs : m.stack with
    | nil =>
      simp only [hs] at h
      cases h
    | cons v stack =>
      simp only [hs] at h
      cases h
      exact ⟨r, w, v, stack, rfl, rfl⟩
  | mem a => cases h
  | imm v => cases h

theorem run_set_lift {x : Except ε (Machine σ)} {m m' : Machine σ}
    (h : (do set (← lift x) : EStateM ε (Machine σ) Unit).run m = .ok () m') : x = .ok m' := by
  cases x with
  | error e => cases h
  | ok m₁ =>
    cases h
    rfl

theorem execBin_of_exec {m m' : Machine σ} {id : Id} {dst src : Operand}
    (h : (exec env (.bin id dst src)).run m = .ok () m') : execBin env m id dst src = .ok m' := by
  rw [exec, run_bind_of_ok (EStateM.run_get m)] at h
  exact run_set_lift h

theorem exec_call_ok {f : F} {m m' : Machine σ} (h : (exec env (.call f)).run m = .ok () m') :
    ∃ regs s, (env.call f m.regs).run m.world = .ok regs s ∧
      m' = { m with regs := regs, flags := none, world := s } := by
  rw [exec, run_bind_of_ok (EStateM.run_get m)] at h
  dsimp only at h
  cases hc : (env.call f m.regs).run m.world with
  | ok regs s =>
    rw [hc] at h
    cases h
    exact ⟨regs, s, rfl, rfl⟩
  | error e s =>
    rw [hc] at h
    cases h

section

variable {R : σ → σ → Prop} [Std.Refl R]

theorem Assigns.world {dst : Operand} {m m' : Machine σ}
    (hstore : ∀ a w (v : BitVec w) s s', env.store a v s = .ok s' → R s s')
    (h : Assigns env dst m m') : R m.world m'.world := by
  cases h with
  | none f => exact refl m.world
  | some v h f =>
    cases dst with
    | imm v => cases h
    | reg r w' =>
      cases h
      exact refl m.world
    | mem a =>
      change (env.store (m.addr a) v m.world).map _ = _ at h
      cases hs : env.store (m.addr a) v m.world with
      | error e =>
        rw [hs] at h
        cases h
      | ok s =>
        rw [hs] at h
        cases h
        exact hstore _ _ _ _ _ hs

variable (hstore : ∀ a w (v : BitVec w) s s', env.store a v s = .ok s' → R s s')
  (hcall : ∀ f regs, Keeps R (env.call f regs))

include hstore hcall

/-- Only stores and calls change the world. -/
theorem exec_world (i : Inst F) : Keeps (fun m m' : Machine σ ↦ R m.world m'.world) (exec env i) := by
  have hlift : ∀ (m : Machine σ) (x : Except ε (Machine σ)),
      (∀ m', x = .ok m' → R m.world m'.world) →
      R m.world (final ((do set (← lift x) : EStateM ε (Machine σ) Unit).run m)).world := by
    intro m x hx
    cases x with
    | ok m' => exact hx m' rfl
    | error e => exact refl m.world
  intro m
  rw [exec, run_bind_of_ok (EStateM.run_get m)]
  cases i with
  | bin id dst src => exact hlift m _ fun m' h ↦ (execBin_assigns h).world hstore
  | set c dst => exact hlift m _ fun m' h ↦ (execSet_assigns h).world hstore
  | mul src =>
    refine hlift m _ fun m' h ↦ ?_
    obtain ⟨w, p, q, rfl⟩ := execMul_ok h
    exact refl m.world
  | push src =>
    refine hlift m _ fun m' h ↦ ?_
    obtain ⟨v, rfl⟩ := execPush_ok h
    exact refl m.world
  | pop dst =>
    refine hlift m _ fun m' h ↦ ?_
    obtain ⟨r, w, v, stack, -, rfl⟩ := execPop_ok h
    exact refl m.world
  | call f =>
    have hf := hcall f m.regs m.world
    dsimp only
    cases hc : (env.call f m.regs).run m.world with
    | ok regs s =>
      rw [hc] at hf
      exact hf
    | error e s =>
      rw [hc] at hf
      exact hf
  | jcc | jmp | ret => exact refl m.world

theorem block_world [IsTrans σ R] (c : List (Item F)) :
    Keeps (fun m m' : Machine σ ↦ R m.world m'.world) (block env c) := by
  have : Std.Refl fun m m' : Machine σ ↦ R m.world m'.world := ⟨fun m ↦ refl m.world⟩
  have : IsTrans (Machine σ) fun m m' ↦ R m.world m'.world := ⟨fun _ _ _ h h' ↦ IsTrans.trans _ _ _ h h'⟩
  induction c with
  | nil => exact Keeps.pure ()
  | cons item c ih =>
    cases item with
    | label n => exact ih
    | inst i => exact (exec_world hstore hcall i).bind fun _ ↦ ih

theorem run_world [IsTrans σ R] (code : List (Item F)) (fuel : ℕ) (rest : List (Item F)) :
    Keeps (fun m m' : Machine σ ↦ R m.world m'.world) (run env spent code fuel rest) := by
  have : Std.Refl fun m m' : Machine σ ↦ R m.world m'.world := ⟨fun m ↦ refl m.world⟩
  have : IsTrans (Machine σ) fun m m' ↦ R m.world m'.world := ⟨fun _ _ _ h h' ↦ IsTrans.trans _ _ _ h h'⟩
  have hjump : ∀ label, Keeps (fun m m' : Machine σ ↦ R m.world m'.world) (jump env code label) := by
    intro label m
    rw [jump]
    cases after label code with
    | some rest => exact refl m.world
    | none => exact refl m.world
  induction fuel generalizing rest with
  | zero => exact Keeps.throw spent
  | succ fuel ih =>
    cases rest with
    | nil => exact Keeps.throw env.fault
    | cons item rest =>
      cases item with
      | label n => exact ih rest
      | inst i =>
        cases i with
        | ret => exact Keeps.pure ()
        | jmp l => exact (hjump l).bind fun rest' ↦ ih rest'
        | jcc c l =>
          refine Keeps.bind (fun m ↦ refl m.world) fun m ↦ ?_
          cases m.flags with
          | none => exact Keeps.throw env.fault
          | some f =>
            dsimp only
            exact Keeps.ite ((hjump l).bind fun rest' ↦ ih rest') (ih rest)
        | bin | set | mul | push | pop | call =>
          exact (exec_world hstore hcall _).bind fun _ ↦ ih rest

end

/-- The reasons an environment has to stop a program. -/
structure Env.Fails (env : Env F σ ε) (E : ε → Prop) : Prop where
  fault : E env.fault
  load : ∀ a w s e, env.load a w s = .error e → E e
  store : ∀ a w (v : BitVec w) s e, env.store a v s = .error e → E e
  call : ∀ f regs s e s', (env.call f regs).run s = .error e s' → E e

section

variable {E : ε → Prop} (h : env.Fails E)

include h

theorem value_fails {m : Machine σ} {w : ℕ} {op : Operand} {e : ε}
    (he : m.value env w op = .error e) : E e := by
  cases op with
  | reg r w' => cases he
  | imm v => cases he
  | mem a => exact h.load _ _ _ _ he

theorem assign_fails {m : Machine σ} {w : ℕ} {v : BitVec w} {dst : Operand} {e : ε}
    (he : m.assign env v dst = .error e) : E e := by
  cases dst with
  | reg r w' => cases he
  | imm v =>
    cases he
    exact h.fault
  | mem a =>
    change (env.store (m.addr a) v m.world).map _ = _ at he
    cases hs : env.store (m.addr a) v m.world with
    | error e' =>
      rw [hs] at he
      cases he
      exact h.store _ _ _ _ _ hs
    | ok s =>
      rw [hs] at he
      cases he

theorem execBin_fails {m : Machine σ} {id : Id} {dst src : Operand} {e : ε}
    (he : execBin env m id dst src = .error e) : E e := by
  have hbind : ∀ {α β : Type} {x : Except ε α} {f : α → Except ε β}, (∀ e, x = .error e → E e) →
      (∀ a e, f a = .error e → E e) → ∀ e, (x >>= f) = .error e → E e := by
    intro α β x f hx hf e he
    rcases bind_error he with he | ⟨a, -, he⟩
    · exact hx e he
    · exact hf a e he
  unfold execBin at he
  revert e
  cases id with
  | movsx | movzx =>
    cases narrow src with
    | none => exact fun he ↦ by cases he; exact h.fault
    | some v =>
      cases dstWidth dst with
      | none => exact fun he ↦ by cases he; exact h.fault
      | some w =>
        refine fun {e} ↦ hbind (fun _ ↦ value_fails h) (fun _ _ ↦ assign_fails h) e
  | shl | shr | sar =>
    cases dstWidth dst with
    | none => exact fun he ↦ by cases he; exact h.fault
    | some w =>
      refine fun {e} ↦ hbind (fun _ ↦ value_fails h) (fun a ↦ hbind (fun _ ↦ value_fails h)
        fun n e he ↦ ?_) e
      by_cases hz : n.toNat % (if w = 64 then 64 else 32) = 0
      · rw [if_pos hz] at he
        exact assign_fails h he
      · rw [if_neg hz] at he
        exact hbind (fun _ ↦ assign_fails h) (fun _ _ he ↦ by cases he) e he
  | mov =>
    cases binWidth dst src with
    | none => exact fun he ↦ by cases he; exact h.fault
    | some w => exact fun {e} ↦ hbind (fun _ ↦ value_fails h) (fun _ _ ↦ assign_fails h) e
  | cmp =>
    cases binWidth dst src with
    | none => exact fun he ↦ by cases he; exact h.fault
    | some w =>
      exact fun {e} ↦ hbind (fun _ ↦ value_fails h) (fun _ ↦ hbind (fun _ ↦ value_fails h)
        fun _ _ he ↦ by cases he) e
  | add | sub | and | or | xor =>
    cases binWidth dst src with
    | none => exact fun he ↦ by cases he; exact h.fault
    | some w =>
      exact fun {e} ↦ hbind (fun _ ↦ value_fails h) (fun _ ↦ hbind (fun _ ↦ value_fails h)
        fun _ ↦ hbind (fun _ ↦ assign_fails h) fun _ _ he ↦ by cases he) e

theorem exec_fails {i : Inst F} {m m' : Machine σ} {e : ε} (he : (exec env i).run m = .error e m') :
    E e := by
  have hlift : ∀ x : Except ε (Machine σ), (∀ e, x = .error e → E e) →
      (do set (← lift x) : EStateM ε (Machine σ) Unit).run m = .error e m' → E e := by
    intro x hx hr
    cases x with
    | ok m₁ => cases hr
    | error e' =>
      cases hr
      exact hx e rfl
  rw [exec, run_bind_of_ok (EStateM.run_get m)] at he
  cases i with
  | bin id dst src => exact hlift _ (fun e ↦ execBin_fails h) he
  | set c dst =>
    refine hlift _ (fun e he ↦ ?_) he
    unfold execSet at he
    cases hf : m.flags with
    | none =>
      simp only [hf] at he
      cases he
      exact h.fault
    | some f =>
      simp only [hf] at he
      exact assign_fails h he
  | mul src =>
    refine hlift _ (fun e he ↦ ?_) he
    unfold execMul at he
    cases hw : dstWidth src with
    | none =>
      simp only [hw] at he
      cases he
      exact h.fault
    | some w =>
      simp only [hw] at he
      rcases bind_error he with he | ⟨b, -, he⟩
      · exact value_fails h he
      · cases he
  | push src =>
    refine hlift _ (fun e he ↦ ?_) he
    cases src <;> cases he <;> exact h.fault
  | pop dst =>
    refine hlift _ (fun e he ↦ ?_) he
    cases dst with
    | reg r w =>
      unfold execPop at he
      cases hs : m.stack with
      | nil =>
        simp only [hs] at he
        cases he
        exact h.fault
      | cons v stack =>
        simp only [hs] at he
        cases he
    | mem a =>
      cases he
      exact h.fault
    | imm v =>
      cases he
      exact h.fault
  | call f =>
    dsimp only at he
    cases hc : (env.call f m.regs).run m.world with
    | ok regs s =>
      rw [hc] at he
      cases he
    | error e' s =>
      rw [hc] at he
      cases he
      exact h.call _ _ _ _ _ hc
  | jcc | jmp | ret =>
    cases he
    exact h.fault

theorem block_fails {c : List (Item F)} {m m' : Machine σ} {e : ε}
    (he : (block env c).run m = .error e m') : E e := by
  induction c generalizing m with
  | nil => cases he
  | cons item c ih =>
    cases item with
    | label n => exact ih he
    | inst i =>
      cases hi : (exec env i).run m with
      | ok u m₁ =>
        rw [block, run_bind_of_ok hi] at he
        exact ih he
      | error e' m₁ =>
        rw [block, run_bind_of_error hi] at he
        cases he
        exact exec_fails h hi

end

theorem block_append_ok {c d : List (Item F)} {m m' : Machine σ}
    (h : (block env (c ++ d)).run m = .ok () m') :
    ∃ m₁, (block env c).run m = .ok () m₁ ∧ (block env d).run m₁ = .ok () m' := by
  cases hc : (block env c).run m with
  | ok u m₁ => exact ⟨m₁, rfl, by rwa [block_append hc] at h⟩
  | error e m₁ =>
    have herr : (block env (c ++ d)).run m = .error e m₁ := by
      clear h
      induction c generalizing m with
      | nil => cases hc
      | cons item c ih =>
        cases item with
        | label n => exact ih hc
        | inst i =>
          cases hi : (exec env i).run m with
          | error e' m₂ =>
            rw [block, run_bind_of_error hi] at hc
            rw [List.cons_append, block, run_bind_of_error hi, hc]
          | ok u m₂ =>
            rw [block, run_bind_of_ok hi] at hc
            rw [List.cons_append, block, run_bind_of_ok hi]
            exact ih hc
    rw [herr] at h
    cases h

theorem after_append {pre rest : List (Item F)} {l : ℕ} (h : .label l ∉ pre) :
    after l (pre ++ rest) = after l rest := by
  induction pre with
  | nil => rfl
  | cons item pre ih =>
    rw [List.mem_cons, not_or] at h
    cases item with
    | label n =>
      have hne : n ≠ l := fun he ↦ h.1 (by rw [he])
      rw [List.cons_append, after, if_neg hne]
      exact ih h.2
    | inst i => exact ih h.2

/-- The instruction goes on with the next one. -/
def Inst.falls : Inst F → Bool
  | .jcc .. | .jmp _ | .ret => false
  | _ => true

/-- Code without labels that goes from one instruction to the next. -/
def Straight (c : List (Item F)) : Prop := ∀ item ∈ c, ∃ i : Inst F, item = .inst i ∧ i.falls = true

namespace Straight

variable {c d rest : List (Item F)} {code : List (Item F)} {m : Machine σ}

theorem nil : Straight ([] : List (Item F)) := by
  intro item hi
  cases hi

theorem append (hc : Straight c) (hd : Straight d) : Straight (c ++ d) := by
  intro item hi
  rcases List.mem_append.mp hi with hi | hi
  · exact hc item hi
  · exact hd item hi

theorem emit {i : Inst F} (h : i.falls = true) : Straight (emit i) := by
  intro item hi
  rw [X86.emit] at hi
  split at hi
  · exact ⟨i, List.mem_singleton.mp hi, h⟩
  · cases hi

theorem not_label (hc : Straight c) (l : ℕ) : .label l ∉ c := by
  intro hl
  obtain ⟨i, hi, -⟩ := hc _ hl
  cases hi

theorem after (hc : Straight c) (label : ℕ) : after label (c ++ rest) = X86.after label rest :=
  after_append (hc.not_label label)

theorem run_succ {i : Inst F} (h : i.falls = true) (fuel : ℕ) :
    run env spent code (fuel + 1) (.inst i :: rest) = (do
      exec env i
      run env spent code fuel rest) := by
  cases i with
  | jcc | jmp | ret => cases h
  | bin | set | mul | push | pop | call => rw [run] <;> simp

theorem run (hc : Straight c) (fuel : ℕ) :
    (run env spent code (fuel + c.length) (c ++ rest)).run m = (do
      block env c
      run env spent code fuel rest).run m := by
  induction c generalizing m with
  | nil => rfl
  | cons item c ih =>
    obtain ⟨i, rfl, hi⟩ := hc item List.mem_cons_self
    rw [List.length_cons, ← Nat.add_assoc, List.cons_append, run_succ hi, block]
    cases hx : (exec env i).run m with
    | error e m₁ => rw [run_bind_of_error hx, run_bind_of_error (run_bind_of_error hx)]
    | ok u m₁ =>
      rw [run_bind_of_ok hx, ih fun item hi ↦ hc item (List.mem_cons_of_mem _ hi), bind_assoc,
        run_bind_of_ok hx]

/-- A run that returned has gone through the straight code in front. -/
theorem of_run (hc : Straight c) {fuel : ℕ} {m' : Machine σ}
    (h : (X86.run env spent code fuel (c ++ rest)).run m = .ok () m') : ∃ fuel' m₁, fuel' ≤ fuel ∧
      (block env c).run m = .ok () m₁ ∧ (X86.run env spent code fuel' rest).run m₁ = .ok () m' := by
  induction c generalizing m fuel with
  | nil => exact ⟨fuel, m, le_rfl, rfl, h⟩
  | cons item c ih =>
    obtain ⟨i, rfl, hi⟩ := hc item List.mem_cons_self
    cases fuel with
    | zero => cases h
    | succ fuel =>
      rw [List.cons_append, run_succ hi] at h
      obtain ⟨u, m₁, hx, hr⟩ := run_bind_eq_ok.mp h
      obtain ⟨fuel', m₂, hle, hb, hr'⟩ := ih (fun item hi ↦ hc item (List.mem_cons_of_mem _ hi)) hr
      refine ⟨fuel', m₂, Nat.le_succ_of_le hle, ?_, hr'⟩
      rw [block, run_bind_of_ok hx, hb]

end Straight

/-- A branch around the code that is not wanted. -/
def twoWay (c : Cond) (taken exit : ℕ) (x y : List (Item F)) : List (Item F) :=
  .inst (.jcc c taken) :: x ++ .inst (.jmp exit) :: .label taken :: y ++ [.label exit]

end RiscvSim.X86
