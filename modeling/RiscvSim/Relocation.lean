import RiscvSim.Allocator
import RiscvSim.Liveness
import RiscvSim.Templates
import RiscvSim.Library.X86Run

namespace RiscvSim

open Isa Ir X86 Results Native Translator

theorem Native.Keeps.trans {layout : Layout} {m m₁ m₂ : Machine State} (h : Native.Keeps layout m m₁)
    (h' : Native.Keeps layout m₁ m₂) : Native.Keeps layout m m₂ := by
  refine ⟨h'.ready, h'.stack.trans h.stack, ?_⟩
  rw [h'.world, h.world]

/-- Values go with their registers, those of `S` at least, and nothing else of the guest changes. -/
structure Transports (layout : Layout) (a a' : Allocation) (S : Reg → Prop) (m m' : Machine State) : Prop
    extends Native.Keeps layout m m' where
  flags : m'.flags = m.flags
  value : ∀ r, r ≠ 0 → S r → look m' (a'.loc r) = look m (a.loc r)

/-- A part of the translation that only moves registers. -/
structure Relocates (layout : Layout) (clobber : Clobber) (S : Reg → Prop) (tr : Translator)
    (a : Allocation) (tr' : Translator) (a' : Allocation) : Prop where
  code : ∃ c, tr'.code_ = tr.code_ ++ c ∧ Straight c ∧ ∀ m, Ready layout m → ∃ m',
    (block (env layout clobber) c).run m = .ok () m' ∧ Transports layout a a' S m m'
  allocated : tr'.Allocated a'
  same : tr' = { tr with
    code_ := tr'.code_, reg_mapping_ := tr'.reg_mapping_, reg_pool_ := tr'.reg_pool_ }

namespace Relocates

variable {layout : Layout} {clobber : Clobber} {S S' : Reg → Prop} {tr tr₁ tr₂ : Translator}
  {a a₁ a₂ : Allocation}

theorem refl (h : tr.Allocated a) : Relocates layout clobber S tr a tr a where
  code := ⟨[], (List.append_nil _).symm, .nil, fun m hm ↦ ⟨m, rfl, .refl hm, rfl, fun _ _ _ ↦ rfl⟩⟩
  allocated := h
  same := rfl

theorem trans (h : Relocates layout clobber S tr a tr₁ a₁) (h' : Relocates layout clobber S' tr₁ a₁ tr₂ a₂) :
    Relocates layout clobber (fun r ↦ S r ∧ S' r) tr a tr₂ a₂ where
  code := by
    obtain ⟨c, hc, hs, hrun⟩ := h.code
    obtain ⟨d, hd, hs', hrun'⟩ := h'.code
    refine ⟨c ++ d, by rw [hd, hc, List.append_assoc], hs.append hs', fun m hm ↦ ?_⟩
    obtain ⟨m₁, hb, ht⟩ := hrun m hm
    obtain ⟨m₂, hb', ht'⟩ := hrun' m₁ ht.ready
    refine ⟨m₂, by rw [block_append hb, hb'], ht.toKeeps.trans ht'.toKeeps,
      ht'.flags.trans ht.flags, fun r hr hS ↦ ?_⟩
    exact (ht'.value r hr hS.2).trans (ht.value r hr hS.1)
  allocated := h'.allocated
  same := by
    have h₂ := h'.same
    rw [h.same] at h₂
    exact h₂

theorem mono (h : Relocates layout clobber S tr a tr₁ a₁) (hS : ∀ r, S' r → S r) :
    Relocates layout clobber S' tr a tr₁ a₁ where
  code := by
    obtain ⟨c, hc, hs, hrun⟩ := h.code
    refine ⟨c, hc, hs, fun m hm ↦ ?_⟩
    obtain ⟨m', hb, ht⟩ := hrun m hm
    exact ⟨m', hb, ht.toKeeps, ht.flags, fun r hr hr' ↦ ht.value r hr (hS r hr')⟩
  allocated := h.allocated
  same := h.same

theorem live_eq (h : Relocates layout clobber S tr a tr₁ a₁) : tr₁.live = tr.live := by
  rw [h.same]
  rfl

theorem mov {tr' : Translator} (h : tr'.Allocated a₁) (l l' : Loc) (hl : l.Usable)
    (hs : (l.op.isMem && l'.op.isMem) = false)
    (hcode : tr'.code_ = tr.code_ ++ [.inst (.bin .mov l.op l'.op)])
    (hsame : tr' = { tr with
      code_ := tr'.code_, reg_mapping_ := tr'.reg_mapping_, reg_pool_ := tr'.reg_pool_ })
    (hloc : ∀ r, S r → a.loc r = l' ∧ a₁.loc r = l ∨ a₁.loc r = a.loc r ∧ a.loc r ≠ l) :
    Relocates layout clobber S tr a tr' a₁ where
  code := by
    refine ⟨_, hcode, ?_, fun m hm ↦ ⟨put m l (look m l'), ?_, (Native.Keeps.refl hm).put hl _, ?_, ?_⟩⟩
    · intro item hi
      exact ⟨_, List.mem_singleton.mp hi, rfl⟩
    · have hexec : (exec (env layout clobber) (.bin .mov l.op l'.op)).run m =
          .ok () (put m l (look m l')) := exec_mov hm hl (.loc l') hs
      rw [block, run_bind_of_ok hexec]
      rfl
    · cases l <;> rfl
    · intro r hr hS
      rcases hloc r hS with ⟨hfrom, hto⟩ | ⟨hkeep, hne⟩
      · rw [hto, hfrom, look_put_self m hl]
      · rw [hkeep, look_put_of_ne m hl hne]
  allocated := h
  same := hsame

end Relocates

namespace Translator

/-- There is nothing to allocate for the register. -/
def Full (tr : Translator) (a : Allocation) (r : Reg) : Prop := a.loc r ≠ .slot r ∨ tr.reg_pool_ = []

section

variable (layout : Layout) (clobber : Clobber) {tr : Translator} {a : Allocation} (h : tr.Allocated a)

include h

theorem allocateReg_relocates (reg : Reg) (load : Bool) : ∃ a',
    Relocates layout clobber (fun r ↦ r = reg → load = true ∨ tr.Full a reg) tr a
      ((allocateReg reg load).run tr).2 a' ∧
    (∀ r, r ≠ reg → a'.loc r = a.loc r) ∧
    ∀ r, r = reg ∨ tr.Full a r → ((allocateReg reg load).run tr).2.Full a' r := by
  rcases allocateReg_run h reg load with ⟨hrun, hfull⟩ | ⟨hs, g, rest, hp, hrun⟩
  · rw [hrun]
    refine ⟨a, .refl h, fun _ _ ↦ rfl, ?_⟩
    rintro r (rfl | hr)
    · exact hfull
    · exact hr
  · obtain ⟨hg, hfree⟩ := (h.free g).mp (by rw [hp]; exact List.mem_cons_self)
    obtain ⟨a', hloc, h'⟩ := h.toHost hp hs
    have hnot : ¬ tr.Full a reg := by
      rintro (hne | hnil)
      · exact hne hs
      · rw [hp] at hnil
        cases hnil
    have hself : a'.loc reg = .host g := by rw [hloc, Function.update_self]
    have hother : ∀ r, r ≠ reg → a'.loc r = a.loc r := fun r hr ↦ by
      rw [hloc, Function.update_of_ne hr]
    rw [hrun]
    refine ⟨a', ?_, hother, ?_⟩
    · cases load with
      | true =>
        refine .mov (h'.withCode _) (.host g) (.slot reg) ?_ rfl rfl rfl fun r _ ↦ ?_
        · rintro rfl
          exact absurd hg (by decide)
        · by_cases hr : r = reg
          · subst hr
            exact .inl ⟨hs, hself⟩
          · exact .inr ⟨hother r hr, hfree r⟩
      | false =>
        refine ⟨⟨[], rfl, .nil, fun m hm ↦ ⟨m, rfl, .refl hm, rfl, fun r _ hS ↦ ?_⟩⟩, h'.withCode _, rfl⟩
        have hr : r ≠ reg := by
          intro hr
          rcases hS hr with hl | hf
          · cases hl
          · exact hnot hf
        rw [hother r hr]
    · rintro r (rfl | hr)
      · refine .inl ?_
        rw [hself]
        exact nofun
      · rcases hr with hne | hnil
        · refine .inl ?_
          by_cases hr : r = reg
          · subst hr
            exact absurd hs hne
          · rw [hother r hr]
            exact hne
        · rw [hp] at hnil
          cases hnil

theorem deallocateReg_relocates {reg : Reg} (hreg : reg ≠ 0) : ∃ a',
    Relocates layout clobber (fun _ ↦ True) tr a ((deallocateReg reg true).run tr).2 a' ∧
    (∀ r, r ≠ reg → a'.loc r = a.loc r) ∧ a'.loc reg = .slot reg := by
  rcases deallocateReg_run h reg true with ⟨hrun, hs⟩ | ⟨g, hl, hrun⟩
  · rw [hrun]
    exact ⟨a, .refl h, fun _ _ ↦ rfl, hs⟩
  · have hself : (a.toSlot reg).loc reg = .slot reg := Function.update_self ..
    have hother : ∀ r, r ≠ reg → (a.toSlot reg).loc r = a.loc r := fun r hr ↦
      Function.update_of_ne hr ..
    rw [hrun]
    refine ⟨a.toSlot reg, ?_, hother, hself⟩
    refine .mov ((h.toSlot hl).withCode _) (.slot reg) (.host g) hreg rfl rfl rfl fun r _ ↦ ?_
    by_cases hr : r = reg
    · subst hr
      exact .inl ⟨hl, hself⟩
    · refine .inr ⟨hother r hr, fun he ↦ ?_⟩
      rcases a.spec r with hs | ⟨g', -, hs⟩
      · exact hr (Loc.slot.inj (hs.symm.trans he))
      · rw [hs] at he
        cases he

theorem deallocateRegs_relocates {regs : List Reg} (hregs : ∀ r ∈ regs, r ≠ 0) : ∃ a',
    Relocates layout clobber (fun _ ↦ True) tr a
      ((regs.forM fun reg ↦ deallocateReg reg true).run tr).2 a' ∧
    (∀ r, a'.loc r = a.loc r ∨ a'.loc r = .slot r) ∧ ∀ r ∈ regs, a'.loc r = .slot r := by
  induction regs generalizing tr a with
  | nil => exact ⟨a, .refl h, fun _ ↦ .inl rfl, nofun⟩
  | cons reg regs ih =>
    obtain ⟨a₁, h₁, hother, hself⟩ :=
      deallocateReg_relocates layout clobber h (hregs reg List.mem_cons_self)
    obtain ⟨a₂, h₂, hloc, hslot⟩ := ih h₁.allocated fun r hr ↦ hregs r (List.mem_cons_of_mem _ hr)
    refine ⟨a₂, (h₁.trans h₂).mono fun _ _ ↦ ⟨trivial, trivial⟩, fun r ↦ ?_, fun r hr ↦ ?_⟩
    · rcases hloc r with he | hs
      · by_cases hr : r = reg
        · subst hr
          exact .inr (he.trans hself)
        · exact .inl (he.trans (hother r hr))
      · exact .inr hs
    · rcases List.mem_cons.mp hr with rfl | hr
      · exact (hloc r).elim (fun he ↦ he.trans hself) id
      · exact hslot r hr

theorem deallocateAllRegs_relocates : ∃ a',
    Relocates layout clobber (fun _ ↦ True) tr a (deallocateAllRegs.run tr).2 a' ∧
      ∀ r, r ≠ 0 → a'.loc r = .slot r := by
  have hregs : ∀ r : Reg, r ∈ allRegs ↔ r ≠ 0 := by decide
  obtain ⟨a', hmoved, -, hslot⟩ := deallocateRegs_relocates layout clobber h fun r hr ↦ (hregs r).mp hr
  exact ⟨a', hmoved, fun r hr ↦ hslot r ((hregs r).mpr hr)⟩

end

def allocateField (used : Bool) (reg : Reg) (load : Bool) (tr : Translator) : Translator :=
  if used ∧ reg ≠ 0 ∧ tr.live reg then ((allocateReg reg load).run tr).2 else tr

def deallocateField (used : Bool) (reg : Reg) (tr : Translator) : Translator :=
  if used ∧ reg ≠ 0 ∧ tr.live reg = false then ((deallocateReg reg true).run tr).2 else tr

theorem run_whenever (c : Prop) [Decidable c] (x y : Tr Unit) (tr : Translator) :
    ((if c then do x; y else y : Tr Unit).run tr).2 = (y.run (if c then (x.run tr).2 else tr)).2 := by
  split
  · rfl
  · rfl

theorem run_when (c : Prop) [Decidable c] (x : Tr Unit) (tr : Translator) :
    ((if c then x else pure () : Tr Unit).run tr).2 = if c then (x.run tr).2 else tr := by
  split
  · rfl
  · rfl

theorem preWork_run (inst : Inst) (tr : Translator) : ((preWork inst).run tr).2 =
    allocateField inst.isRd inst.getRd false (allocateField inst.isRs2 inst.getRs2 true
      (allocateField inst.isRs1 inst.getRs1 true tr)) := by
  rw [preWork, StateT.run_bind, StateT.run_get, pure_bind, run_whenever, StateT.run_bind,
    StateT.run_get, pure_bind, run_whenever, StateT.run_bind, StateT.run_get, pure_bind]
  exact run_when _ _ _

theorem postWork_run (inst : Inst) (tr : Translator) : ((postWork inst).run tr).2 =
    deallocateField inst.isRd inst.getRd (deallocateField inst.isRs2 inst.getRs2
      (deallocateField inst.isRs1 inst.getRs1 tr)) := by
  rw [postWork, StateT.run_bind, StateT.run_get, pure_bind, run_whenever, StateT.run_bind,
    StateT.run_get, pure_bind, run_whenever, StateT.run_bind, StateT.run_get, pure_bind]
  exact run_when _ _ _

section

variable (layout : Layout) (clobber : Clobber) {tr : Translator} {a : Allocation} (h : tr.Allocated a)

include h

theorem allocateField_relocates (used : Bool) (reg : Reg) (load : Bool) :
    let wanted := used ∧ reg ≠ 0 ∧ tr.live reg
    ∃ a', Relocates layout clobber (fun r ↦ r = reg → wanted → load = true ∨ tr.Full a reg) tr a
        (allocateField used reg load tr) a' ∧
      (∀ r, a'.loc r = a.loc r ∨ r ≠ 0 ∧ tr.live r = true) ∧
      ∀ r, r = reg ∧ wanted ∨ tr.Full a r → (allocateField used reg load tr).Full a' r := by
  intro wanted
  rw [allocateField]
  split
  · next hw =>
    obtain ⟨a', hmoved, hother, hfull⟩ := allocateReg_relocates layout clobber h reg load
    refine ⟨a', hmoved.mono fun r hS hr ↦ hS hr hw, fun r ↦ ?_, fun r hr ↦ hfull r ?_⟩
    · by_cases hr : r = reg
      · subst hr
        exact .inr hw.2
      · exact .inl (hother r hr)
    · exact hr.imp_left And.left
  · next hw => exact ⟨a, .refl h, fun _ ↦ .inl rfl, fun r hr ↦ hr.resolve_left fun hr ↦ hw hr.2⟩

theorem deallocateField_relocates (used : Bool) (reg : Reg) :
    ∃ a', Relocates layout clobber (fun _ ↦ True) tr a (deallocateField used reg tr) a' ∧
      (∀ r, a'.loc r = a.loc r ∨ a'.loc r = .slot r) ∧
      (used → reg ≠ 0 → tr.live reg = false → a'.loc reg = .slot reg) := by
  rw [deallocateField]
  split
  · next hw =>
    obtain ⟨a', hmoved, hother, hself⟩ := deallocateReg_relocates layout clobber h hw.2.1
    refine ⟨a', hmoved, fun r ↦ ?_, fun _ _ _ ↦ hself⟩
    by_cases hr : r = reg
    · subst hr
      exact .inr hself
    · exact .inl (hother r hr)
  · next hw => exact ⟨a, .refl h, fun _ ↦ .inl rfl, fun hu hr hl ↦ absurd ⟨hu, hr, hl⟩ hw⟩

/-- The registers the template reads are moved with their values, the one it only writes without. -/
theorem preWork_relocates (inst : Inst) : ∃ a',
    Relocates layout clobber (fun r ↦ inst.Reads r ∨ ¬ inst.Writes r) tr a ((preWork inst).run tr).2 a' ∧
      ∀ r, a'.loc r = a.loc r ∨ r ≠ 0 ∧ tr.live r = true := by
  rw [preWork_run]
  obtain ⟨a₁, h₁, hloc₁, hfull₁⟩ := allocateField_relocates layout clobber h inst.isRs1 inst.getRs1 true
  have hlive₁ := h₁.live_eq
  generalize allocateField inst.isRs1 inst.getRs1 true tr = tr₁ at *
  obtain ⟨a₂, h₂, hloc₂, hfull₂⟩ :=
    allocateField_relocates layout clobber h₁.allocated inst.isRs2 inst.getRs2 true
  have hlive₂ := h₂.live_eq.trans hlive₁
  generalize allocateField inst.isRs2 inst.getRs2 true tr₁ = tr₂ at *
  obtain ⟨a₃, h₃, hloc₃, -⟩ :=
    allocateField_relocates layout clobber h₂.allocated inst.isRd inst.getRd false
  rw [hlive₁] at hloc₂ hfull₂
  rw [hlive₂] at hloc₃ h₃
  refine ⟨a₃, ((h₁.trans h₂).trans h₃).mono fun r hr ↦ ?_, fun r ↦ ?_⟩
  · refine ⟨⟨fun _ _ ↦ .inl rfl, fun _ _ ↦ .inl rfl⟩, fun hrd hw ↦ .inr ?_⟩
    subst hrd
    have hreads : inst.Reads inst.getRd := hr.resolve_right (not_not.mpr (Inst.writes_iff.mpr ⟨hw.1, rfl⟩))
    rcases Inst.reads_iff.mp hreads with ⟨hu, he⟩ | ⟨hu, he⟩
    · refine hfull₂ _ (.inr (hfull₁ _ (.inl ⟨he.symm, hu, ?_⟩)))
      rw [he]
      exact hw.2
    · refine hfull₂ _ (.inl ⟨he.symm, hu, ?_⟩)
      rw [he]
      exact hw.2
  · rcases hloc₃ r with he | hr
    · rw [he]
      rcases hloc₂ r with he | hr
      · rw [he]
        exact hloc₁ r
      · exact .inr hr
    · exact .inr hr

/-- The registers that are not read again go back to their slots. -/
theorem postWork_relocates (inst : Inst) : ∃ a',
    Relocates layout clobber (fun _ ↦ True) tr a ((postWork inst).run tr).2 a' ∧
      (∀ r, a'.loc r = a.loc r ∨ a'.loc r = .slot r) ∧
      ∀ r, r ≠ 0 → inst.Reads r ∨ inst.Writes r → tr.live r = false → a'.loc r = .slot r := by
  rw [postWork_run]
  obtain ⟨a₁, h₁, hloc₁, hslot₁⟩ := deallocateField_relocates layout clobber h
    inst.isRs1 inst.getRs1
  have hlive₁ := h₁.live_eq
  generalize deallocateField inst.isRs1 inst.getRs1 tr = tr₁ at *
  obtain ⟨a₂, h₂, hloc₂, hslot₂⟩ := deallocateField_relocates layout clobber h₁.allocated
    inst.isRs2 inst.getRs2
  have hlive₂ := h₂.live_eq.trans hlive₁
  generalize deallocateField inst.isRs2 inst.getRs2 tr₁ = tr₂ at *
  obtain ⟨a₃, h₃, hloc₃, hslot₃⟩ := deallocateField_relocates layout clobber h₂.allocated
    inst.isRd inst.getRd
  rw [hlive₁] at hslot₂
  rw [hlive₂] at hslot₃
  have hback₂ : ∀ r, a₁.loc r = .slot r → a₂.loc r = .slot r := fun r hr ↦
    (hloc₂ r).elim (fun he ↦ he.trans hr) id
  have hback₃ : ∀ r, a₂.loc r = .slot r → a₃.loc r = .slot r := fun r hr ↦
    (hloc₃ r).elim (fun he ↦ he.trans hr) id
  refine ⟨a₃, ((h₁.trans h₂).trans h₃).mono fun _ _ ↦ ⟨⟨trivial, trivial⟩, trivial⟩, fun r ↦ ?_, ?_⟩
  · rcases hloc₁ r with h₁ | h₁
    · rcases hloc₂ r with h₂ | h₂
      · rw [← h₁, ← h₂]
        exact hloc₃ r
      · exact .inr (hback₃ r h₂)
    · exact .inr (hback₃ r (hback₂ r h₁))
  · rintro r hr (hreads | hwrites) hlive
    · rcases Inst.reads_iff.mp hreads with ⟨hu, rfl⟩ | ⟨hu, rfl⟩
      · exact hback₃ _ (hback₂ _ (hslot₁ hu hr hlive))
      · exact hback₃ _ (hslot₂ hu hr hlive)
    · obtain ⟨hu, rfl⟩ := Inst.writes_iff.mp hwrites
      exact hslot₃ hu hr hlive

end

end Translator

end RiscvSim
