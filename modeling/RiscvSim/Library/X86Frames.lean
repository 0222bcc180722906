import RiscvSim.Library.X86Run
import Mathlib.Data.List.Basic

namespace RiscvSim.X86

open Results

variable {F σ ε : Type}

def Inst.Spares (saved : Gp → Prop) : Inst F → Prop
  | .bin _ dst _ | .set _ dst | .pop dst => ∀ r w, dst = .reg r w → ¬ saved r
  | .mul _ => ¬ saved .rax ∧ ¬ saved .rdx
  | .push _ | .call _ | .jcc .. | .jmp _ | .ret => True

/-- How many words of its own code has on the stack after an item, with `d` before it; it jumps and
returns with none. -/
def Item.depth : Item F → ℕ → Option ℕ
  | .inst (.push _), d => some (d + 1)
  | .inst (.pop _), d => if d = 0 then none else some (d - 1)
  | .label _, d | .inst (.jcc ..), d | .inst (.jmp _), d | .inst .ret, d => if d = 0 then some 0 else none
  | .inst (.bin ..), d | .inst (.set ..), d | .inst (.mul _), d | .inst (.call _), d => some d

def depthAfter (c : List (Item F)) (d : ℕ) : Option ℕ := c.foldlM (fun d item ↦ item.depth d) d

theorem depthAfter_cons (item : Item F) (c : List (Item F)) (d : ℕ) :
    depthAfter (item :: c) d = (item.depth d).bind (depthAfter c) := rfl

theorem depthAfter_append (c c' : List (Item F)) (d : ℕ) :
    depthAfter (c ++ c') d = (depthAfter c d).bind (depthAfter c') := List.foldlM_append

/-- Code whose pushes and pops match. -/
def Balanced (d : ℕ) (c : List (Item F)) : Prop := ∃ e, depthAfter c d = some e

theorem balanced_cons {item : Item F} {c : List (Item F)} {d : ℕ} :
    Balanced d (item :: c) ↔ ∃ e, item.depth d = some e ∧ Balanced e c := by
  rw [Balanced, depthAfter_cons]
  constructor
  · rintro ⟨e, he⟩
    obtain ⟨e', h₁, h₂⟩ := Option.bind_eq_some_iff.mp he
    exact ⟨e', h₁, e, h₂⟩
  · rintro ⟨e', h₁, e, h₂⟩
    exact ⟨e, Option.bind_eq_some_iff.mpr ⟨e', h₁, h₂⟩⟩

theorem Balanced.after {d l : ℕ} {c rest : List (Item F)} (h : Balanced d c) (ha : after l c = some rest) :
    Balanced 0 rest := by
  induction c generalizing d with
  | nil => cases ha
  | cons item c ih =>
    obtain ⟨e, he, hc⟩ := balanced_cons.mp h
    cases item with
    | inst i => exact ih hc ha
    | label n =>
      rw [Item.depth] at he
      split at he
      · cases he
        rw [X86.after] at ha
        split at ha
        · cases ha
          exact hc
        · exact ih hc ha
      · cases he

theorem mem_of_after {l : ℕ} {c rest : List (Item F)} (ha : after l c = some rest) :
    ∀ item ∈ rest, item ∈ c := by
  induction c with
  | nil => cases ha
  | cons item c ih =>
    cases item with
    | inst i => exact fun x hx ↦ List.mem_cons_of_mem _ (ih ha x hx)
    | label n =>
      rw [X86.after] at ha
      split at ha
      · cases ha
        exact fun x hx ↦ List.mem_cons_of_mem _ hx
      · exact fun x hx ↦ List.mem_cons_of_mem _ (ih ha x hx)

/-- Since `m₀` the code has kept these registers and put `d` words on the stack. -/
structure Frames (saved : Gp → Prop) (m₀ : Machine σ) (d : ℕ) (m : Machine σ) : Prop where
  regs : ∀ r, saved r → m.regs r = m₀.regs r
  stack : ∃ top, top.length = d ∧ m.stack = top ++ m₀.stack

namespace Frames

variable {saved : Gp → Prop} {m₀ m m' : Machine σ} {d : ℕ} {env : Env F σ ε} {spent : ε}

theorem refl (m : Machine σ) : Frames saved m 0 m := ⟨fun _ _ ↦ rfl, [], rfl, rfl⟩

theorem set (h : Frames saved m₀ d m) {r : Gp} (hr : ¬ saved r) {w : ℕ} (v : BitVec w) :
    Frames saved m₀ d (m.set r v) where
  regs r' hr' := by
    refine (Function.update_of_ne ?_ _ _).trans (h.regs r' hr')
    rintro rfl
    exact hr hr'
  stack := h.stack

theorem withFlags (h : Frames saved m₀ d m) (f : Option Flags) : Frames saved m₀ d (m.withFlags f) :=
  ⟨h.regs, h.stack⟩

theorem assigns (h : Frames saved m₀ d m) {dst : Operand} (hd : ∀ r w, dst = .reg r w → ¬ saved r)
    (ha : Assigns env dst m m') : Frames saved m₀ d m' := by
  cases ha with
  | none f => exact h.withFlags f
  | @some w v m₁ hv f =>
    refine Frames.withFlags ?_ f
    cases dst with
    | imm x => cases hv
    | reg r w' =>
      cases hv
      exact h.set (hd r w' rfl) v
    | mem a =>
      change (env.store (m.addr a) v m.world).map _ = _ at hv
      cases hs : env.store (m.addr a) v m.world with
      | error e =>
        rw [hs] at hv
        cases hv
      | ok s =>
        rw [hs] at hv
        cases hv
        exact ⟨h.regs, h.stack⟩

variable (hcall : ∀ f regs s regs' s',
  (env.call f regs).run s = .ok regs' s' → ∀ r, saved r → regs' r = regs r)

include hcall

theorem exec (h : Frames saved m₀ d m) {i : Inst F} (hi : i.Spares saved) {e : ℕ}
    (he : (Item.inst i).depth d = some e) (hrun : (X86.exec env i).run m = .ok () m') :
    Frames saved m₀ e m' := by
  cases i with
  | bin id dst src =>
    cases he
    exact h.assigns hi (execBin_assigns (execBin_of_exec hrun))
  | set c dst =>
    cases he
    rw [X86.exec, run_bind_of_ok (EStateM.run_get m)] at hrun
    exact h.assigns hi (execSet_assigns (run_set_lift hrun))
  | mul src =>
    cases he
    rw [X86.exec, run_bind_of_ok (EStateM.run_get m)] at hrun
    obtain ⟨w, p, q, rfl⟩ := execMul_ok (run_set_lift hrun)
    exact ((h.set hi.1 p).set hi.2 q).withFlags none
  | push src =>
    cases he
    rw [X86.exec, run_bind_of_ok (EStateM.run_get m)] at hrun
    obtain ⟨v, rfl⟩ := execPush_ok (run_set_lift hrun)
    obtain ⟨top, hlen, hstack⟩ := h.stack
    exact ⟨h.regs, v :: top, congrArg (· + 1) hlen, congrArg (v :: ·) hstack⟩
  | pop dst =>
    rw [Item.depth] at he
    split at he
    · cases he
    · next hd =>
      cases he
      rw [X86.exec, run_bind_of_ok (EStateM.run_get m)] at hrun
      have hpop := run_set_lift hrun
      obtain ⟨top, hlen, hstack⟩ := h.stack
      cases top with
      | nil => exact absurd hlen.symm hd
      | cons v top =>
        cases dst with
        | reg r w =>
          rw [execPop, hstack] at hpop
          cases hpop
          refine ⟨(h.set (hi r w rfl) v).regs, top, ?_, rfl⟩
          rw [← hlen]
          rfl
        | mem a => cases hpop
        | imm x => cases hpop
  | call f =>
    cases he
    obtain ⟨regs, s, hc, rfl⟩ := exec_call_ok hrun
    exact ⟨fun r hr ↦ (hcall f m.regs m.world regs s hc r hr).trans (h.regs r hr), h.stack⟩
  | jcc | jmp | ret => cases hrun

/-- Code that returns has popped what it has pushed: the induction is on the fuel, and a jump goes to a
label, where the stack is as at the start. -/
theorem run {code : List (Item F)} (hcode : ∀ i, .inst i ∈ code → i.Spares saved) (hbal : Balanced 0 code)
    (fuel : ℕ) {rest : List (Item F)} (hrest : ∀ item ∈ rest, item ∈ code) (hb : Balanced d rest)
    (h : Frames saved m₀ d m) (hrun : (X86.run env spent code fuel rest).run m = .ok () m') :
    Frames saved m₀ 0 m' := by
  induction fuel generalizing rest d m with
  | zero => cases hrun
  | succ fuel ih =>
    cases rest with
    | nil => cases hrun
    | cons item rest =>
      have htail : ∀ item ∈ rest, item ∈ code := fun x hx ↦ hrest x (List.mem_cons_of_mem _ hx)
      obtain ⟨e, he, hc⟩ := balanced_cons.mp hb
      have hzero : (if d = 0 then some 0 else none) = some e → d = 0 ∧ e = 0 := by
        intro hd
        split at hd
        · next hz =>
          cases hd
          exact ⟨hz, rfl⟩
        · cases hd
      have hjump : ∀ l, d = 0 → ((do X86.run env spent code fuel (← jump env code l)) :
          EStateM ε (Machine σ) Unit).run m = .ok () m' → Frames saved m₀ 0 m' := by
        rintro l rfl hr
        obtain ⟨target, m₁, hj, h₁⟩ := run_bind_eq_ok.mp hr
        rw [jump] at hj
        cases ha : after l code with
        | none =>
          rw [ha] at hj
          cases hj
        | some target' =>
          rw [ha] at hj
          cases hj
          exact ih (mem_of_after ha) (hbal.after ha) h h₁
      cases item with
      | label n =>
        obtain ⟨rfl, rfl⟩ := hzero he
        exact ih htail hc h hrun
      | inst i =>
        have hspares := hcode i (hrest _ List.mem_cons_self)
        have hstep : ∀ {i : Inst F}, i.Spares saved → (Item.inst i).depth d = some e →
            ((do X86.exec env i; X86.run env spent code fuel rest) : EStateM ε (Machine σ) Unit).run m =
              .ok () m' → Frames saved m₀ 0 m' := by
          intro i hi hd hr
          obtain ⟨u, m₁, hx, h₁⟩ := run_bind_eq_ok.mp hr
          exact ih htail hc (h.exec hcall hi hd hx) h₁
        cases i with
        | ret =>
          obtain ⟨rfl, rfl⟩ := hzero he
          cases hrun
          exact h
        | jmp l =>
          obtain ⟨rfl, rfl⟩ := hzero he
          exact hjump l rfl hrun
        | jcc c l =>
          obtain ⟨rfl, rfl⟩ := hzero he
          rw [X86.run, run_bind_of_ok (EStateM.run_get m)] at hrun
          cases hf : m.flags with
          | none =>
            rw [hf] at hrun
            cases hrun
          | some f =>
            rw [hf] at hrun
            dsimp only at hrun
            split at hrun
            · exact hjump l rfl hrun
            · exact ih htail hc h hrun
        | bin | set | mul | push | pop | call => exact hstep hspares he hrun

end Frames

/-- Balanced code that returns leaves the stack and these registers as it found them. -/
theorem run_frames {saved : Gp → Prop} {env : Env F σ ε} {spent : ε} {code : List (Item F)}
    (hcall : ∀ f regs s regs' s', (env.call f regs).run s = .ok regs' s' → ∀ r, saved r → regs' r = regs r)
    (hcode : ∀ i, .inst i ∈ code → i.Spares saved) (hbal : Balanced 0 code) {fuel : ℕ} {m m' : Machine σ}
    (hrun : (run env spent code fuel code).run m = .ok () m') :
    m'.stack = m.stack ∧ ∀ r, saved r → m'.regs r = m.regs r := by
  obtain ⟨hregs, top, hlen, hstack⟩ :=
    Frames.run hcall hcode hbal fuel (fun _ h ↦ h) hbal (.refl m) hrun
  rw [List.eq_nil_of_length_eq_zero hlen] at hstack
  exact ⟨hstack, hregs⟩

end RiscvSim.X86
