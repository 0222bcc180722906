import RiscvSim.Passes
import RiscvSim.Rounds
import RiscvSim.Library.X86Jumps

namespace RiscvSim

open Isa Ir X86 Results Translator Native

def countInst (trace : List Inst) : X86.Inst Callee :=
  .bin .add (.mem ⟨.rdi, offsetofInsts, 64⟩) (.imm (BitVec.ofNat 64 trace.length))

def framed (trace : List Inst) (c : NativeCode) : NativeCode :=
  .label 0 :: ([.inst (countInst trace)] ++ (c ++ [.inst .ret]))

def entered (trace : List Inst) (virt : Bool) : Translator :=
  { init trace virt with code_ := [.label 0, .inst (countInst trace)] }

theorem allocated_entered (trace : List Inst) (virt : Bool) : (entered trace virt).Allocated .slots :=
  (allocated_init trace virt).withCode _

theorem getFunc_eq {trace : List Inst} {virt : Bool} {code c : NativeCode}
    (hf : getFunc trace virt = some code)
    (hc : ((translateAll Inst.translate trace).run (entered trace virt)).2.code_ =
      (entered trace virt).code_ ++ c) : code = framed trace c := by
  rw [getFunc] at hf
  split at hf
  · cases hf
    have hrun : (emitTrace Inst.translate trace (init trace virt)).2.code_ =
        ((translateAll Inst.translate trace).run (entered trace virt)).2.code_ ++ [.inst .ret] := rfl
    rw [hrun, hc]
    rfl
  · cases hf

theorem supported_of_getFunc {trace : List Inst} {virt : Bool} {code : NativeCode}
    (hf : getFunc trace virt = some code) : ∀ inst ∈ trace, inst.isTranslationSupported = true := by
  rw [getFunc] at hf
  split at hf
  · next hsup => exact fun inst hi ↦ List.all_eq_true.mp hsup inst hi
  · cases hf

section

variable {layout : Layout} (clobber : Clobber)

theorem getFunc_code (hapart : layout.Apart) {trace : List Inst} (ht : IsTrace trace) {virt : Bool}
    {code : NativeCode} (hf : getFunc trace virt = some code) :
    ∃ c, code = framed trace c ∧
      (Loops trace → Looping layout clobber c) ∧ (¬ Loops trace → Forward layout clobber c) := by
  obtain ⟨c, hc, hloop, hforward⟩ := translateAll_code hapart ht (supported_of_getFunc hf)
    (allocated_entered trace virt) rfl rfl
  exact ⟨c, getFunc_eq hf hc, hloop, hforward⟩

theorem ready_start (regs : Gp → U64) (s : State) : Ready layout (start layout regs s) := by
  rw [Ready]
  exact Function.update_self Gp.rdi layout.state regs

variable {clobber} {m m₁ : Machine State} {trace : List Inst}

variable (clobber trace) in
theorem exec_count (hm : Ready layout m) : ∃ f,
    (exec (env layout clobber) (countInst trace)).run m = .ok () ({ m with world :=
      { m.world with executed_insts := m.world.executed_insts + BitVec.ofNat 64 trace.length } }.withFlags
        f) := by
  have hplace : placeOf layout (m.regs .rdi + offsetofInsts) = some .insts := by
    rw [show m.regs .rdi = layout.state from hm]
    exact placeOf_state (by decide)
  have hval : m.value (env layout clobber) 64 (.mem ⟨.rdi, offsetofInsts, 64⟩) =
      .ok m.world.executed_insts := by
    change load layout (m.regs .rdi + offsetofInsts) 64 m.world = _
    rw [load, hplace]
    exact congrArg Except.ok (BitVec.setWidth_eq _)
  have hset : ∀ v : U64, m.assign (env layout clobber) v (.mem ⟨.rdi, offsetofInsts, 64⟩) =
      .ok { m with world := { m.world with executed_insts := v } } := by
    intro v
    change (store layout (m.regs .rdi + offsetofInsts) v m.world).map _ = _
    rw [store, hplace]
    dsimp only
    rw [replace, if_pos le_rfl, BitVec.setWidth_eq]
    rfl
  have himm : (BitVec.ofNat 64 trace.length).setWidth 64 = BitVec.ofNat 64 trace.length :=
    BitVec.setWidth_eq _
  refine ⟨some (arith .add m.world.executed_insts (BitVec.ofNat 64 trace.length)).2, exec_bin ?_⟩
  change (do
    let v ← m.value (env layout clobber) 64 (.mem ⟨.rdi, offsetofInsts, 64⟩)
    let n := (BitVec.ofNat 64 trace.length).setWidth 64
    let m' ← m.assign (env layout clobber) (arith .add v n).1 (.mem ⟨.rdi, offsetofInsts, 64⟩)
    return { m' with flags := some (arith .add v n).2 } : Except Stop (Machine State)) = _
  rw [hval, himm]
  change (do
    let m' ← m.assign (env layout clobber) _ (.mem ⟨.rdi, offsetofInsts, 64⟩)
    return { m' with flags := _ } : Except Stop (Machine State)) = _
  rw [hset]
  rfl

theorem block_count (hm : Ready layout m)
    (hb : (block (env layout clobber) [.inst (countInst trace)]).run m = .ok () m₁) :
    Ready layout m₁ ∧
      m₁.world.executed_insts = m.world.executed_insts + BitVec.ofNat 64 trace.length := by
  obtain ⟨f, hx⟩ := exec_count clobber trace hm
  obtain ⟨u, m₂, hx', hb'⟩ := run_bind_eq_ok.mp hb
  cases hb'
  rw [hx] at hx'
  cases hx'
  exact ⟨hm, rfl⟩

/-- The passes over a trace that a return of its code has counted. -/
def Passed (trace : List Inst) (m m' : Machine State) : Prop :=
  ∃ p, 1 ≤ p ∧ (¬ Loops trace → p = 1) ∧
    m'.world.executed_insts = m.world.executed_insts + BitVec.ofNat 64 (p * trace.length)

structure Counted (layout : Layout) (trace : List Inst) (m m' : Machine State) : Prop where
  ready : Ready layout m'
  insts : m'.world.executed_insts = m.world.executed_insts + BitVec.ofNat 64 trace.length

namespace Counted

variable {m₂ : Machine State}

theorem calm (h : Counted layout trace m m₁) (hc : Calm layout m₁ m₂) : Counted layout trace m m₂ :=
  ⟨hc.ready h.ready, (hc.insts h.ready).trans h.insts⟩

theorem passed (h : Counted layout trace m m₁) : Passed trace m m₁ :=
  ⟨1, le_rfl, fun _ ↦ rfl, by rw [Nat.one_mul]; exact h.insts⟩

theorem again (h : Counted layout trace m m₁) (hloop : Loops trace) (hp : Passed trace m₁ m₂) :
    Passed trace m m₂ := by
  obtain ⟨p, hpos, -, hp⟩ := hp
  refine ⟨p + 1, Nat.le_add_left 1 p, fun hn ↦ absurd hloop hn, ?_⟩
  rw [hp, h.insts, BitVec.add_assoc, ← BitVec.ofNat_add, Nat.succ_mul, Nat.add_comm]

end Counted

theorem Counted.steady (h : Counted layout trace m m₁) {n : ℕ} {code c rest : NativeCode}
    (hc : Steady layout clobber c) (hcall : ∀ f, .inst (.call f) ∉ c) {P : Machine State → Prop}
    (hrest : ∀ m₂, Counted layout trace m m₂ → Ends (env layout clobber) .outOfFuel code n rest m₂ P) :
    Ends (env layout clobber) .outOfFuel code n (c ++ rest) m₁ P :=
  .straight hc.straight fun m₂ hb ↦ hrest m₂ (h.calm (hc.calm hcall m₁ m₂ hb))

section

variable {n : ℕ} {c : NativeCode} (hcall : ∀ f, .inst (.call f) ∉ c)

variable (trace) in
theorem straight_count : Straight (F := Callee) [.inst (countInst trace)] :=
  .emit (i := countInst trace) rfl

variable (trace) in
theorem framed_labels (cond : Cond) (post : NativeCode) {pre x y : NativeCode} (hpre : Straight pre)
    (hx : Straight x) (hy : Straight y) :
    after 1 (framed trace (pre ++ twoWay cond 1 2 x y ++ post)) =
        some (y ++ .label 2 :: (post ++ [.inst .ret])) ∧
      after 2 (framed trace (pre ++ twoWay cond 1 2 x y ++ post)) = some (post ++ [.inst .ret]) := by
  have hafter : ∀ l, 0 ≠ l → after l (framed trace (pre ++ twoWay cond 1 2 x y ++ post)) =
      after l ([.inst (countInst trace)] ++ pre ++ twoWay cond 1 2 x y ++ (post ++ [.inst .ret])) := by
    intro l hne
    rw [framed, after, if_neg hne]
    simp only [List.append_assoc]
  have hpre' := (straight_count trace).append hpre
  exact ⟨(hafter 1 (by decide)).trans (after_taken (hpre'.not_label 1) hx),
    (hafter 2 (by decide)).trans (after_exit (hpre'.not_label 2) hx hy (by decide))⟩

include hcall

theorem Counted.forward (h : Counted layout trace m m₁) (hc : Forward layout clobber c) :
    Ends (env layout clobber) .outOfFuel (framed trace c) n (c ++ [.inst .ret]) m₁
      (Passed trace m) := by
  rcases hc with hs | ⟨pre, cond, x, y, post, hpre, hx, hy, hpost, rfl⟩
  · exact h.steady hs hcall fun m₂ h₂ ↦ .ret h₂.passed
  · obtain ⟨htaken, hexit⟩ := framed_labels trace cond post
      hpre.straight hx.straight hy.straight
    generalize framed trace (pre ++ twoWay cond 1 2 x y ++ post) = code at htaken hexit ⊢
    rw [List.append_assoc, List.append_assoc]
    refine h.steady hpre (fun f hmem ↦ hcall f (by simp [hmem])) fun m₂ h₂ ↦ ?_
    have hend : ∀ m₃, Calm layout m₂ m₃ → Ends (env layout clobber) .outOfFuel code n
        (post ++ [.inst .ret]) m₃ (Passed trace m) := fun m₃ h₃ ↦
      (h₂.calm h₃).steady hpost (fun f hmem ↦ hcall f (by simp [hmem])) fun m₄ h₄ ↦ .ret h₄.passed
    refine .twoWay hx.straight hy.straight htaken hexit (fun _ _ _ m₃ hb ↦ hend m₃ ?_)
      fun _ _ _ m₃ hb ↦ hend m₃ ?_
    · exact hx.calm (fun f hmem ↦ hcall f (by simp [twoWay, hmem])) m₂ m₃ hb
    · exact hy.calm (fun f hmem ↦ hcall f (by simp [twoWay, hmem])) m₂ m₃ hb

theorem Counted.looping (h : Counted layout trace m m₁) (hl : Loops trace) (hc : Looping layout clobber c)
    (hback : ∀ k < n, ∀ m, Ready layout m → Ends (env layout clobber) .outOfFuel (framed trace c) k
      ([.inst (countInst trace)] ++ (c ++ [.inst .ret])) m (Passed trace m)) :
    Ends (env layout clobber) .outOfFuel (framed trace c) n (c ++ [.inst .ret]) m₁
      (Passed trace m) := by
  have hstart : after 0 (framed trace c) = some ([.inst (countInst trace)] ++ (c ++ [.inst .ret])) := rfl
  obtain ⟨pre, cond, post, hpre, hpost, rfl⟩ := hc
  generalize framed trace (pre ++ .inst (.jcc cond 0) :: post) = code at hback hstart ⊢
  have hsplit : pre ++ .inst (.jcc cond 0) :: post ++ [.inst .ret] =
      pre ++ .inst (.jcc cond 0) :: (post ++ [.inst .ret]) := by
    rw [List.append_assoc, List.cons_append]
  rw [hsplit]
  refine h.steady hpre (fun f hmem ↦ hcall f (by simp [hmem])) fun m₂ h₂ ↦ ?_
  refine .jcc hstart (fun _ _ _ k hk ↦ ?_) fun _ _ _ ↦ ?_
  · intro fuel hle m' hr
    exact h₂.again hl (hback k hk m₂ h₂.ready fuel hle m' hr)
  · exact h₂.steady hpost (fun f hmem ↦ hcall f (by simp [hmem])) fun m₃ h₃ ↦ .ret h₃.passed

/-- Each entry of the code counts the trace once, and the code is entered again by the jump back
alone: the induction is on the steps left. -/
theorem ends_body (hloop : Loops trace → Looping layout clobber c)
    (hforward : ¬ Loops trace → Forward layout clobber c) (n : ℕ) (m : Machine State)
    (hm : Ready layout m) : Ends (env layout clobber) .outOfFuel (framed trace c) n
      ([.inst (countInst trace)] ++ (c ++ [.inst .ret])) m (Passed trace m) := by
  induction n using Nat.strong_induction_on generalizing m with
  | _ n ih =>
    refine .straight (straight_count trace) fun m₁ hb ↦ ?_
    obtain ⟨hready, hinsts⟩ := block_count hm hb
    have h₁ : Counted layout trace m m₁ := ⟨hready, hinsts⟩
    by_cases hl : Loops trace
    · exact h₁.looping hcall hl (hloop hl) ih
    · exact h₁.forward hcall (hforward hl)

end

/-- A call of the code of a trace that returns has gone over the trace, once unless the trace
is a loop. -/
theorem ends_passed (hapart : layout.Apart) (ht : IsTrace trace) {virt : Bool} {code : NativeCode}
    (hf : getFunc trace virt = some code) (hcall : ∀ f, .inst (.call f) ∉ code) (n : ℕ)
    (hm : Ready layout m) :
    Ends (env layout clobber) .outOfFuel code n code m (Passed trace m) := by
  obtain ⟨c, rfl, hloop, hforward⟩ := getFunc_code clobber hapart ht hf
  have hcallc : ∀ f, .inst (.call f) ∉ c := fun f hmem ↦ hcall f (by simp [framed, hmem])
  exact .label (ends_body hcallc hloop hforward n m hm)

theorem load_fails {addr : U64} {w : ℕ} {s : State} {e : Stop}
    (he : load layout addr w s = .error e) : e = .undefinedBehaviour := by
  rw [load] at he
  repeat' split at he
  all_goals cases he
  all_goals rfl

theorem store_fails {addr : U64} {w : ℕ} {v : BitVec w} {s : State} {e : Stop}
    (he : store layout addr v s = .error e) : e = .undefinedBehaviour := by
  rw [store] at he
  repeat' split at he
  all_goals cases he
  all_goals rfl

/-- Native code that fails has gone beyond what the model promises. -/
theorem env_fails (layout : Layout) (clobber : Clobber) :
    (env layout clobber).Fails fun e ↦ e = .undefinedBehaviour where
  fault := rfl
  load _ _ _ _ he := load_fails he
  store _ _ _ _ _ he := store_fails he
  call f regs s e s' he := by
    change call clobber f regs s = .error e s' at he
    unfold Native.call at he
    cases f with
    | read T =>
      dsimp only at he
      split at he <;> cases he
      rfl
    | write T =>
      dsimp only at he
      split at he <;> cases he
      rfl

/-- The code of a trace that is no loop runs each of its instructions at most once. -/
theorem halts_once (hapart : layout.Apart) (ht : IsTrace trace) {virt : Bool} {code : NativeCode}
    (hf : getFunc trace virt = some code) (hl : ¬ Loops trace) :
    Halts (env layout clobber) .outOfFuel code (fun e ↦ e = .undefinedBehaviour) code.length code := by
  have hE := env_fails layout clobber
  obtain ⟨c, rfl, -, hforward⟩ := getFunc_code clobber hapart ht hf
  have hbody : Halts (env layout clobber) .outOfFuel (framed trace c) (fun e ↦ e = .undefinedBehaviour)
      (1 + c.length) (c ++ [.inst .ret]) := by
    rcases hforward hl with hs | ⟨pre, cond, x, y, post, hpre, hx, hy, hpost, rfl⟩
    · exact .straight hE hs.straight .ret
    · obtain ⟨htaken, hexit⟩ := framed_labels trace cond post
        hpre.straight hx.straight hy.straight
      generalize framed trace (pre ++ twoWay cond 1 2 x y ++ post) = code at htaken hexit ⊢
      have hpost' : Halts (env layout clobber) .outOfFuel code (fun e ↦ e = .undefinedBehaviour)
          (1 + post.length) (post ++ [.inst .ret]) := .straight hE hpost.straight .ret
      have htwo : Halts (env layout clobber) .outOfFuel code (fun e ↦ e = .undefinedBehaviour)
          (1 + post.length + (twoWay cond 1 2 x y).length)
          (twoWay cond 1 2 x y ++ (post ++ [.inst .ret])) :=
        .twoWay hE hx.straight hy.straight htaken hexit hpost'
      rw [List.append_assoc, List.append_assoc, List.append_assoc]
      refine (Halts.straight hE hpre.straight htwo).mono ?_
      simp only [List.length_append]
      omega
  have hall := Halts.label (l := 0) (Halts.straight hE (straight_count trace) hbody)
  refine Halts.mono hall ?_
  simp [framed]
  omega

end

end RiscvSim
