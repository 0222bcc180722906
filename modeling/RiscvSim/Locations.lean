import RiscvSim.Native
import RiscvSim.Library.X86Block

namespace RiscvSim

open Isa Ir X86 Results Translator

/-- Where a 32-bit value lives: in a host register, or in the slot of a guest register. -/
inductive Loc
  | host (g : Gp)
  | slot (r : Reg)
  deriving DecidableEq

theorem toNat_slotOffset (r : Reg) :
    (offsetofRegs + BitVec.ofNat 64 (r.val * 4)).toNat = r.val * 4 := by
  have hr := r.isLt
  change (0#64 + BitVec.ofNat 64 (r.val * 4)).toNat = _
  rw [BitVec.zero_add, BitVec.toNat_ofNat]
  exact Nat.mod_eq_of_lt (by omega)

namespace Loc

def op : Loc → Operand
  | host g => .reg g 32
  | slot r => getRegMemOp r

/-- `rdi` points to the state, and register 0 has no slot. -/
def Usable : Loc → Prop
  | host g => g ≠ .rdi
  | slot r => r ≠ 0

instance : DecidablePred Usable
  | host g => inferInstanceAs (Decidable (g ≠ .rdi))
  | slot r => inferInstanceAs (Decidable (r ≠ 0))

theorem op_inj {l l' : Loc} : l.op = l'.op ↔ l = l' := by
  constructor
  · intro h
    cases l with
    | host g =>
      cases l' with
      | host g' =>
        cases h
        rfl
      | slot r' => cases h
    | slot r =>
      cases l' with
      | host g' => cases h
      | slot r' =>
        simp only [op, getRegMemOp, Operand.mem.injEq, Mem.mk.injEq, true_and, and_true] at h
        have hn := congrArg BitVec.toNat h
        rw [toNat_slotOffset, toNat_slotOffset] at hn
        rw [Fin.ext (show r.val = r'.val by omega)]
  · rintro rfl
    rfl

end Loc

/-- An operand of a template: a location, or a constant. -/
inductive Src
  | loc (l : Loc)
  | imm (v : U64)
  deriving DecidableEq

def Src.op : Src → Operand
  | loc l => l.op
  | imm v => .imm v

theorem Src.of_isReg {s : Src} (h : s.op.isReg = true) : ∃ g, s = .loc (.host g) := by
  cases s with
  | imm v => cases h
  | loc l =>
    cases l with
    | host g => exact ⟨g, rfl⟩
    | slot r => cases h

namespace Native

/-- `rdi` points to the state, as at the start of the code. -/
def Ready (layout : Layout) (m : Machine State) : Prop := m.regs .rdi = layout.state

def look (m : Machine State) : Loc → U32
  | .host g => m.get g 32
  | .slot r => m.world.regs.get r

def put (m : Machine State) : Loc → U32 → Machine State
  | .host g, v => m.set g v
  | .slot r, v => { m with world := { m.world with regs := m.world.regs.set r v } }

def valueOf (m : Machine State) : Src → U32
  | .loc l => look m l
  | .imm v => v.setWidth 32

section

variable (m : Machine State) (f : Option Flags)

theorem look_put {l : Loc} (hl : l.Usable) (v : U32) (l' : Loc) :
    look (put m l v) l' = if l' = l then v else look m l' := by
  cases l with
  | host g =>
    cases l' with
    | host g' =>
      by_cases h : g' = g
      · subst h
        rw [if_pos rfl]
        exact m.get_set_self g' v
      · rw [if_neg (by simpa using h)]
        exact m.get_set_of_ne h v 32
    | slot r' => rfl
  | slot r =>
    cases l' with
    | host g' => rfl
    | slot r' =>
      by_cases h : r' = r
      · subst h
        rw [if_pos rfl]
        exact m.world.regs.get_set_self hl v
      · rw [if_neg (by simpa using h)]
        exact m.world.regs.get_set_of_ne h v

@[simp] theorem look_put_self {l : Loc} (hl : l.Usable) (v : U32) : look (put m l v) l = v := by
  rw [look_put m hl, if_pos rfl]

theorem look_put_of_ne {l l' : Loc} (hl : l.Usable) (h : l' ≠ l) (v : U32) :
    look (put m l v) l' = look m l' := by
  rw [look_put m hl, if_neg h]

@[simp] theorem look_withFlags (l : Loc) : look (m.withFlags f) l = look m l := by
  cases l <;> rfl

theorem look_wrote {l : Loc} (hl : l.Usable) (v : U32) (l' : Loc) :
    look ((put m l v).withFlags f) l' = if l' = l then v else look m l' := by
  rw [look_withFlags, look_put m hl]

@[simp] theorem valueOf_withFlags (s : Src) : valueOf (m.withFlags f) s = valueOf m s := by
  cases s with
  | loc l => exact look_withFlags m f l
  | imm v => rfl

theorem valueOf_put_of_ne {l : Loc} (hl : l.Usable) {s : Src} (h : s ≠ .loc l) (v : U32) :
    valueOf (put m l v) s = valueOf m s := by
  cases s with
  | loc l' => exact look_put_of_ne m hl (fun he ↦ h (congrArg Src.loc he)) v
  | imm w => rfl

variable {m} {layout : Layout}

/-- A register is set that no operand is in. -/
theorem valueOf_set_of_ne (m : Machine State) {g : Gp} {s : Src} (h : s ≠ .loc (.host g)) {w : ℕ}
    (v : BitVec w) : valueOf (m.set g v) s = valueOf m s := by
  cases s with
  | imm u => rfl
  | loc l =>
    cases l with
    | host g' => exact m.get_set_of_ne (fun he ↦ h (by rw [he])) v 32
    | slot r => rfl

theorem Ready.set (h : Ready layout m) {g : Gp} (hg : g ≠ .rdi) {w : ℕ} (v : BitVec w) :
    Ready layout (m.set g v) := by
  rw [Ready, m.regs_set_of_ne hg.symm]
  exact h

theorem Ready.put (h : Ready layout m) {l : Loc} (hl : l.Usable) (v : U32) :
    Ready layout (put m l v) := by
  cases l with
  | host g => exact h.set hl v
  | slot r => exact h

theorem Ready.withFlags (h : Ready layout m) (f : Option Flags) : Ready layout (m.withFlags f) := h

end

section

variable {layout : Layout} {clobber : Clobber} {m : Machine State}

theorem add_sub_self (a b : U64) : a + b - a = b := by
  rw [BitVec.add_comm, BitVec.add_sub_cancel]

/-- An address inside the `State` object is the member at its offset. -/
theorem placeOf_state {offset : U64} (h : offset.toNat < 152) :
    placeOf layout (layout.state + offset) = fieldAt offset.toNat := by
  rw [placeOf, add_sub_self]
  exact if_pos h

theorem placeOf_slot (r : Reg) :
    placeOf layout (layout.state + (offsetofRegs + BitVec.ofNat 64 (r.val * 4))) = some (.reg r) := by
  have hr := r.isLt
  have hoff := toNat_slotOffset r
  rw [placeOf_state (by omega), hoff, fieldAt, dif_pos (by omega), if_pos (by omega)]
  simp

variable (hm : Ready layout m)

include hm

theorem value_op (s : Src) : m.value (env layout clobber) 32 s.op = .ok (valueOf m s) := by
  cases s with
  | imm v => rfl
  | loc l =>
    cases l with
    | host g => rfl
    | slot r =>
      change load layout (m.regs .rdi + _) 32 m.world = _
      rw [hm, load, placeOf_slot]
      exact congrArg Except.ok (BitVec.setWidth_eq _)

theorem assign_op {l : Loc} (hl : l.Usable) (v : U32) :
    m.assign (env layout clobber) v l.op = .ok (put m l v) := by
  cases l with
  | host g => rfl
  | slot r =>
    change (store layout (m.regs .rdi + _) v m.world).map _ = _
    rw [hm, store, placeOf_slot]
    dsimp only
    rw [if_pos ⟨le_rfl, hl⟩, replace, if_pos le_rfl, BitVec.setWidth_eq]
    rfl

end

/-- Only registers of the host and of the guest differ from `m₀`. -/
structure Keeps (layout : Layout) (m₀ m : Machine State) : Prop where
  ready : Native.Ready layout m
  stack : m.stack = m₀.stack
  world : m.world = { m₀.world with regs := m.world.regs }

namespace Keeps

variable {layout : Layout} {m₀ m : Machine State}

theorem refl (h : Native.Ready layout m) : Keeps layout m m := ⟨h, rfl, rfl⟩

theorem withFlags (h : Keeps layout m₀ m) (f : Option Flags) : Keeps layout m₀ (m.withFlags f) :=
  ⟨h.ready, h.stack, h.world⟩

theorem put (h : Keeps layout m₀ m) {l : Loc} (hl : l.Usable) (v : U32) :
    Keeps layout m₀ (Native.put m l v) := by
  refine ⟨h.ready.put hl v, ?_, ?_⟩
  · rw [← h.stack]
    cases l <;> rfl
  · cases l with
    | host g => exact h.world
    | slot r =>
      simp only [Native.put]
      rw [h.world]

end Keeps

end Native

theorem binWidth_op (l : Loc) (s : Src) :
    binWidth l.op s.op = if l.op.isMem && s.op.isMem then none else some 32 := by
  cases l with
  | host g =>
    cases s with
    | imm v => rfl
    | loc l' => cases l' <;> rfl
  | slot r =>
    cases s with
    | imm v => rfl
    | loc l' => cases l' <;> rfl

/-- An assignment of locations that the allocator can make: each register in its slot or in
a register of the pool, no two in one place. -/
structure Allocation where
  loc : Reg → Loc
  spec : ∀ r, loc r = .slot r ∨ ∃ g ∈ pool, loc r = .host g
  inj : ∀ r r', loc r = loc r' → r = r'

namespace Allocation

variable (a : Allocation)

def src (r : Reg) : Src := if r = 0 then .imm 0 else .loc (a.loc r)

theorem src_zero : a.src 0 = .imm 0 := if_pos rfl

theorem src_of_ne {r : Reg} (h : r ≠ 0) : a.src r = .loc (a.loc r) := if_neg h

theorem loc_ne_host {g : Gp} (hg : g ∉ pool) (r : Reg) : a.loc r ≠ .host g := by
  intro h
  rcases a.spec r with hs | ⟨g', hg', hs⟩
  · rw [h] at hs
    cases hs
  · rw [h] at hs
    cases hs
    exact hg hg'

theorem usable {r : Reg} (h : r ≠ 0) : (a.loc r).Usable := by
  rcases a.spec r with hs | ⟨g, hg, hs⟩
  · rw [hs]
    exact h
  · rw [hs]
    rintro rfl
    exact absurd hg (by decide)

theorem op_eq_iff (r r' : Reg) : (a.loc r).op = (a.src r').op ↔ r' = r ∧ r ≠ 0 := by
  by_cases h' : r' = 0
  · rw [h', src_zero]
    constructor
    · intro he
      cases hl : a.loc r with
      | host g =>
        rw [hl] at he
        cases he
      | slot r'' =>
        rw [hl] at he
        cases he
    · rintro ⟨rfl, h⟩
      exact absurd rfl h
  · rw [a.src_of_ne h']
    constructor
    · intro he
      have hr := a.inj r' r (Loc.op_inj.mp he).symm
      exact ⟨hr, hr ▸ h'⟩
    · rintro ⟨rfl, -⟩
      rfl

theorem src_ne_of_ne {r r' : Reg} (h : r' ≠ r) : a.src r' ≠ .loc (a.loc r) := by
  intro he
  by_cases h' : r' = 0
  · rw [h', src_zero] at he
    cases he
  · rw [a.src_of_ne h'] at he
    exact h (a.inj r' r (Src.loc.inj he))

theorem src_ne_host {g : Gp} (hg : g ∉ pool) (r : Reg) : a.src r ≠ .loc (.host g) := by
  intro he
  by_cases h : r = 0
  · rw [h, src_zero] at he
    cases he
  · rw [a.src_of_ne h] at he
    exact a.loc_ne_host hg r (Src.loc.inj he)

/-- Every register in its slot, as at the start of a trace. -/
def slots : Allocation where
  loc := .slot
  spec _ := .inl rfl
  inj _ _ h := Loc.slot.inj h

/-- A register is given a register of the pool that no other has. -/
def toHost (r : Reg) (g : Gp) (hg : g ∈ pool) (hfree : ∀ r', a.loc r' ≠ .host g) : Allocation where
  loc := Function.update a.loc r (.host g)
  spec r' := by
    by_cases h : r' = r
    · rw [h, Function.update_self]
      exact .inr ⟨g, hg, rfl⟩
    · rw [Function.update_of_ne h]
      exact a.spec r'
  inj r₁ r₂ h := by
    by_cases h₁ : r₁ = r
    · subst h₁
      by_cases h₂ : r₂ = r₁
      · exact h₂.symm
      · rw [Function.update_self, Function.update_of_ne h₂] at h
        exact absurd h.symm (hfree r₂)
    · rw [Function.update_of_ne h₁] at h
      by_cases h₂ : r₂ = r
      · subst h₂
        rw [Function.update_self] at h
        exact absurd h (hfree r₁)
      · rw [Function.update_of_ne h₂] at h
        exact a.inj r₁ r₂ h

/-- The guest registers as the locations hold them. -/
def regs (m : Machine State) : Regs where
  get r := Native.valueOf m (a.src r)
  zero := by
    rw [src_zero]
    rfl

@[simp] theorem regs_withFlags (m : Machine State) (f : Option Flags) :
    a.regs (m.withFlags f) = a.regs m := Regs.ext fun _ ↦ Native.valueOf_withFlags m f _

/-- The state of the guest while native code runs. -/
def guest (m : Machine State) : State := { m.world with regs := a.regs m }

/-- The locations hold the guest registers `R`, and the rest is as in `m₀`. -/
structure Holds (layout : Layout) (m₀ m : Machine State) (R : Regs) : Prop
    extends Native.Keeps layout m₀ m where
  value : ∀ r, Native.valueOf m (a.src r) = R.get r

namespace Holds

variable {a} {layout : Layout} {m₀ m : Machine State} {R : Regs}

theorem refl (h : Native.Ready layout m) : a.Holds layout m m (a.regs m) :=
  ⟨.refl h, fun _ ↦ rfl⟩

theorem of_look (hk : Native.Keeps layout m₀ m)
    (h : ∀ r, r ≠ 0 → Native.look m (a.loc r) = R.get r) : a.Holds layout m₀ m R := by
  refine ⟨hk, fun r ↦ ?_⟩
  by_cases hr : r = 0
  · rw [hr, src_zero, R.get_zero]
    rfl
  · rw [a.src_of_ne hr]
    exact h r hr

theorem guest (h : a.Holds layout m₀ m R) : a.guest m = { a.guest m₀ with regs := R } := by
  have hr : a.regs m = R := Regs.ext h.value
  rw [Allocation.guest, hr, h.world]
  rfl

theorem withFlags (h : a.Holds layout m₀ m R) (f : Option Flags) :
    a.Holds layout m₀ (m.withFlags f) R where
  toKeeps := h.toKeeps.withFlags f
  value r := by rw [Native.valueOf_withFlags, h.value]

/-- A register of the host that is not in the pool is overwritten. -/
theorem set (h : a.Holds layout m₀ m R) {g : Gp} (hg : g ∉ pool) (hd : g ≠ .rdi) {w : ℕ}
    (v : BitVec w) : a.Holds layout m₀ (m.set g v) R where
  toKeeps := ⟨h.ready.set hd v, h.stack, h.world⟩
  value r := by rw [Native.valueOf_set_of_ne m (a.src_ne_host hg r), h.value]

/-- A temporary is overwritten. -/
theorem scratch (h : a.Holds layout m₀ m R) {g : Gp} (hg : g ∉ pool) (hd : g ≠ .rdi) (v : U32) :
    a.Holds layout m₀ (Native.put m (.host g) v) R := h.set hg hd v

/-- The location of a register is overwritten. -/
theorem put (h : a.Holds layout m₀ m R) {r : Reg} (hr : r ≠ 0) (v : U32) :
    a.Holds layout m₀ (Native.put m (a.loc r) v) (R.set r v) where
  toKeeps := h.toKeeps.put (a.usable hr) v
  value r' := by
    by_cases hrr : r' = r
    · subst hrr
      rw [a.src_of_ne hr, R.get_set_self hr]
      exact Native.look_put_self m (a.usable hr) v
    · rw [R.get_set_of_ne hrr, ← h.value]
      exact Native.valueOf_put_of_ne m (a.usable hr) (a.src_ne_of_ne hrr) v

theorem look (h : a.Holds layout m₀ m R) {r : Reg} (hr : r ≠ 0) :
    Native.look m (a.loc r) = R.get r := by
  have hv := h.value r
  rw [a.src_of_ne hr] at hv
  exact hv

end Holds

end Allocation

/-- The translator has this allocation. -/
def Translator.Uses (tr : Translator) (a : Allocation) : Prop := ∀ r, tr.getReg r = (a.src r).op

theorem Translator.uses_slots (trace : List Inst) (isVirtualAddressing : Bool) :
    (init trace isVirtualAddressing).Uses .slots := by
  intro r
  rw [getReg]
  split
  · next h =>
    rw [Allocation.src_of_ne _ h]
    rfl
  · next h =>
    rw [not_not.mp h]
    rfl

theorem Translator.Uses.of_ne {tr : Translator} {a : Allocation} (h : tr.Uses a) {r : Reg}
    (hr : r ≠ 0) : tr.getReg r = (a.loc r).op := by
  rw [h, a.src_of_ne hr]
  rfl

end RiscvSim
