import RiscvSim.Locations

namespace RiscvSim

open Isa Ir X86 Translator

namespace Allocation

variable (a : Allocation)

def toSlot (r : Reg) : Allocation where
  loc := Function.update a.loc r (.slot r)
  spec r' := by
    by_cases h : r' = r
    · rw [h, Function.update_self]
      exact .inl rfl
    · rw [Function.update_of_ne h]
      exact a.spec r'
  inj r₁ r₂ h := by
    have hslot : ∀ r', r' ≠ r → a.loc r' ≠ .slot r := by
      intro r' hr' he
      rcases a.spec r' with hs | ⟨g, -, hs⟩
      · exact hr' (Loc.slot.inj (hs.symm.trans he))
      · rw [hs] at he
        cases he
    by_cases h₁ : r₁ = r
    · subst h₁
      by_cases h₂ : r₂ = r₁
      · exact h₂.symm
      · rw [Function.update_self, Function.update_of_ne h₂] at h
        exact absurd h.symm (hslot r₂ h₂)
    · rw [Function.update_of_ne h₁] at h
      by_cases h₂ : r₂ = r
      · subst h₂
        rw [Function.update_self] at h
        exact absurd h (hslot r₁ h₁)
      · rw [Function.update_of_ne h₂] at h
        exact a.inj r₁ r₂ h

theorem slot_of_not_isReg {r : Reg} (h : (a.loc r).op.isReg = false) : a.loc r = .slot r := by
  rcases a.spec r with hs | ⟨g, -, hs⟩
  · exact hs
  · rw [hs] at h
    cases h

end Allocation

namespace Translator

/-- The mapping is `a`, and the pool holds the registers that `a` leaves free, each once. -/
structure Allocated (tr : Translator) (a : Allocation) : Prop where
  mapping : ∀ r, tr.reg_mapping_ r = (a.loc r).op
  nodup : tr.reg_pool_.Nodup
  free : ∀ g, g ∈ tr.reg_pool_ ↔ g ∈ pool ∧ ∀ r, a.loc r ≠ .host g

namespace Allocated

variable {tr : Translator} {a : Allocation} (h : tr.Allocated a)

include h

theorem uses : tr.Uses a := by
  intro r
  rw [getReg]
  split
  · next hr => rw [h.mapping, a.src_of_ne hr, Src.op]
  · next hr =>
    rw [not_not.mp hr, a.src_zero]
    rfl

theorem withCode (c : NativeCode) : { tr with code_ := c }.Allocated a :=
  ⟨h.mapping, h.nodup, h.free⟩

theorem toHost {reg : Reg} {g : Gp} {rest : List Gp} (hp : tr.reg_pool_ = g :: rest)
    (hs : a.loc reg = .slot reg) : ∃ a' : Allocation, a'.loc = Function.update a.loc reg (.host g) ∧
      { tr with
        reg_mapping_ := Function.update tr.reg_mapping_ reg (.reg g 32)
        reg_pool_ := rest }.Allocated a' := by
  obtain ⟨hg, hfree⟩ := (h.free g).mp (by rw [hp]; exact List.mem_cons_self)
  have hnodup := h.nodup
  rw [hp, List.nodup_cons] at hnodup
  refine ⟨a.toHost reg g hg hfree, rfl, ?_, hnodup.2, ?_⟩
  · intro r
    change Function.update tr.reg_mapping_ reg (.reg g 32) r =
      (Function.update a.loc reg (.host g) r).op
    by_cases hr : r = reg
    · rw [hr, Function.update_self, Function.update_self]
      rfl
    · rw [Function.update_of_ne hr, Function.update_of_ne hr, h.mapping]
  · intro g'
    change g' ∈ rest ↔ g' ∈ pool ∧ ∀ r, Function.update a.loc reg (.host g) r ≠ .host g'
    have hrest := h.free g'
    rw [hp, List.mem_cons] at hrest
    constructor
    · intro hg'
      obtain ⟨hp', hf'⟩ := hrest.mp (.inr hg')
      refine ⟨hp', fun r ↦ ?_⟩
      by_cases hr : r = reg
      · rw [hr, Function.update_self]
        intro he
        rw [Loc.host.inj he] at hnodup
        exact hnodup.1 hg'
      · rw [Function.update_of_ne hr]
        exact hf' r
    · rintro ⟨hp', hf'⟩
      have hne : g' ≠ g := by
        intro he
        have hself := hf' reg
        rw [Function.update_self, he] at hself
        exact hself rfl
      refine (hrest.mpr ⟨hp', fun r ↦ ?_⟩).resolve_left hne
      by_cases hr : r = reg
      · rw [hr, hs]
        exact nofun
      · have hr' := hf' r
        rwa [Function.update_of_ne hr] at hr'

theorem toSlot {reg : Reg} {g : Gp} (hl : a.loc reg = .host g) :
    { tr with
      reg_pool_ := tr.reg_pool_ ++ [g]
      reg_mapping_ := Function.update tr.reg_mapping_ reg (getRegMemOp reg) }.Allocated
        (a.toSlot reg) := by
  have hg : g ∈ pool := by
    by_contra hn
    exact a.loc_ne_host hn reg hl
  have hused : g ∉ tr.reg_pool_ := fun hm ↦ ((h.free g).mp hm).2 reg hl
  refine ⟨?_, ?_, ?_⟩
  · intro r
    change Function.update tr.reg_mapping_ reg (getRegMemOp reg) r =
      (Function.update a.loc reg (.slot reg) r).op
    by_cases hr : r = reg
    · rw [hr, Function.update_self, Function.update_self]
      rfl
    · rw [Function.update_of_ne hr, Function.update_of_ne hr, h.mapping]
  · refine List.nodup_append.mpr ⟨h.nodup, List.nodup_singleton g, ?_⟩
    intro g₁ h₁ g₂ h₂ he
    rw [he, List.mem_singleton.mp h₂] at h₁
    exact hused h₁
  · intro g'
    change g' ∈ tr.reg_pool_ ++ [g] ↔
      g' ∈ pool ∧ ∀ r, Function.update a.loc reg (.slot reg) r ≠ .host g'
    rw [List.mem_append, List.mem_singleton, h.free]
    constructor
    · rintro (⟨hp, hf⟩ | rfl)
      · refine ⟨hp, fun r ↦ ?_⟩
        by_cases hr : r = reg
        · rw [hr, Function.update_self]
          exact nofun
        · rw [Function.update_of_ne hr]
          exact hf r
      · refine ⟨hg, fun r ↦ ?_⟩
        by_cases hr : r = reg
        · rw [hr, Function.update_self]
          exact nofun
        · rw [Function.update_of_ne hr]
          exact fun he ↦ hr (a.inj r reg (he.trans hl.symm))
    · rintro ⟨hp, hf⟩
      by_cases he : g' = g
      · exact .inr he
      · refine .inl ⟨hp, fun r ↦ ?_⟩
        by_cases hr : r = reg
        · rw [hr, hl]
          exact fun h' ↦ he (Loc.host.inj h').symm
        · have hr' := hf r
          rwa [Function.update_of_ne hr] at hr'

end Allocated

theorem allocated_init (trace : List Inst) (isVirtualAddressing : Bool) :
    (init trace isVirtualAddressing).Allocated .slots where
  mapping _ := rfl
  nodup := (by decide : pool.Nodup)
  free g := by
    constructor
    · intro hg
      exact ⟨hg, fun r ↦ nofun⟩
    · exact fun hg ↦ hg.1

section

variable {tr : Translator} {a : Allocation} (h : tr.Allocated a)

include h

/-- What `allocateReg` does: nothing, or it takes the head of the pool. -/
theorem allocateReg_run (reg : Reg) (load : Bool) :
    (allocateReg reg load).run tr = ((), tr) ∧ (a.loc reg ≠ .slot reg ∨ tr.reg_pool_ = []) ∨
    a.loc reg = .slot reg ∧ ∃ g rest, tr.reg_pool_ = g :: rest ∧ (allocateReg reg load).run tr = ((), { tr with
      reg_mapping_ := Function.update tr.reg_mapping_ reg (.reg g 32)
      reg_pool_ := rest
      code_ := tr.code_ ++ if load then [.inst (.bin .mov (.reg g 32) (getRegMemOp reg))] else [] }) := by
  rw [allocateReg, StateT.run_bind, StateT.run_get, pure_bind]
  dsimp only
  rw [h.mapping]
  cases hl : (a.loc reg).op.isReg with
  | true =>
    refine .inl ⟨rfl, .inl fun hs ↦ ?_⟩
    rw [hs] at hl
    cases hl
  | false =>
    rw [if_neg Bool.false_ne_true]
    cases hp : tr.reg_pool_ with
    | nil => exact .inl ⟨rfl, .inr rfl⟩
    | cons g rest =>
      refine .inr ⟨a.slot_of_not_isReg hl, g, rest, rfl, ?_⟩
      cases load with
      | true => rfl
      | false =>
        change ((), _) = ((), _)
        rw [if_neg Bool.false_ne_true, List.append_nil]

theorem deallocateReg_run (reg : Reg) (sink : Bool) :
    (deallocateReg reg sink).run tr = ((), tr) ∧ a.loc reg = .slot reg ∨
    ∃ g, a.loc reg = .host g ∧ (deallocateReg reg sink).run tr = ((), { tr with
      reg_pool_ := tr.reg_pool_ ++ [g]
      reg_mapping_ := Function.update tr.reg_mapping_ reg (getRegMemOp reg)
      code_ := tr.code_ ++ if sink then [.inst (.bin .mov (getRegMemOp reg) (.reg g 32))] else [] }) := by
  rw [deallocateReg, StateT.run_bind, StateT.run_get, pure_bind]
  dsimp only
  rw [h.mapping]
  rcases a.spec reg with hs | ⟨g, -, hs⟩
  · rw [hs]
    exact .inl ⟨rfl, rfl⟩
  · rw [hs]
    refine .inr ⟨g, rfl, ?_⟩
    cases sink with
    | true => rfl
    | false =>
      change ((), _) = ((), _)
      rw [if_neg Bool.false_ne_true, List.append_nil]

end

end Translator

end RiscvSim
