import RiscvSim.TableWords

namespace RiscvSim

open Results

namespace LRUCache

variable {κ α : Type}

/-- The lists belong together, and there is room for one more element. -/
structure Usable (c : LRUCache κ α) : Prop where
  valid : c.Valid
  notStuck : ¬ c.Stuck

theorem new_usable {n : ℕ} (hn : n ≠ 0) : (new n : LRUCache κ α).Usable where
  valid := new_valid n
  notStuck h := hn h.2.symm

theorem usable_of_deref {c : LRUCache κ α} (hc : c.Valid) {addr : ℕ} {v : α}
    (hd : c.deref addr = some v) : c.Usable where
  valid := hc
  notStuck h := by
    rw [deref, h.1] at hd
    cases hd

theorem usable_emplaceFront [DecidableEq κ] {c : LRUCache κ α} {key : κ} {v : α} (hc : (c.emplaceFront key v).Valid) :
    (c.emplaceFront key v).Usable where
  valid := hc
  notStuck h := List.cons_ne_nil _ _ h.1

end LRUCache

namespace MMU

/-- The TLB an access of this type goes through. -/
def tlbOf : AccessType → LRUCache.Member MMU U32 PhysAddr
  | .EXEC => instTLB
  | _ => dataTLB

section

variable (acc : AccessType) (c : LRUCache U32 PhysAddr) (m : MMU)

theorem tlb_set_pmem : ((tlbOf acc).set c m).pmem_ = m.pmem_ := by cases acc <;> rfl

theorem tlb_set_virt : ((tlbOf acc).set c m).isVirtualAddressing = m.isVirtualAddressing := by
  cases acc <;> rfl

theorem tlb_set_evolves : TablesEvolve m ((tlbOf acc).set c m) where
  size := by cases acc <;> rfl
  satp := by cases acc <;> rfl
  words ptr _ := .inl (by rw [pteAt, pteAt, readMem, readMem, tlb_set_pmem])

theorem tlb_set_writeMem {n : ℕ} (p : ℕ) (v : BitVec (8 * n)) :
    ((tlbOf acc).set c m).writeMem p v = (tlbOf acc).set c (m.writeMem p v) := by cases acc <;> rfl

theorem tlb_get_writeMem {n : ℕ} (p : ℕ) (v : BitVec (8 * n)) :
    (tlbOf acc).get (m.writeMem p v) = (tlbOf acc).get m := by cases acc <;> rfl

end

/-- The memory once `a` has been translated: its leaf has the accessed bit, and the dirty bit of
a write. -/
def mark (acc : AccessType) (m : MMU) (a : U32) : MMU :=
  match m.leafOf a acc with
  | .ok (ptr, _) => m.writeMem (n := 4) ptr (touch acc (m.pteAt ptr))
  | .error _ => m

/-- The address the page table gives. -/
def physOf (acc : AccessType) (m : MMU) (a : U32) : Except Stop U64 := do
  let (ptr, i) ← m.leafOf a acc
  return leafAddr a (m.pteAt ptr) i

section

variable {m : MMU} {acc : AccessType} {va : U32}

theorem physAddr_of_link (hv : m.isVirtualAddressing = true) {addr : ℕ}
    (hl : ((tlbOf acc).get m).links_ va = some addr) : (physAddr (tlbOf acc) va acc).run m =
      match ((tlbOf acc).get m).entries_.find? fun e ↦ e.addr = addr with
      | none => .error .undefinedBehaviour m
      | some e => .ok e.second ((tlbOf acc).set { (tlbOf acc).get m with
          entries_ := e :: ((tlbOf acc).get m).entries_.filter fun e ↦ e.addr ≠ addr
          links_ := Function.update ((tlbOf acc).get m).links_ va (some addr) } m) := by
  have hrun := LRUCache.insert_of_link (tlbOf acc) hl (translate va acc)
  rw [LRUCache.spliceFront] at hrun
  rw [physAddr, run_bind_of_ok (EStateM.run_get m), if_pos hv]
  cases hf : ((tlbOf acc).get m).entries_.find? fun e ↦ e.addr = addr with
  | none =>
    rw [hf] at hrun
    rw [run_bind_of_error hrun]
  | some e =>
    rw [hf] at hrun
    have ha : e.addr = addr := by simpa using List.find?_some hf
    rw [run_bind_of_ok hrun, run_bind_of_ok (EStateM.run_get _), (tlbOf acc).get_set]
    simp only [LRUCache.deref, List.find?_cons, ha, decide_true, Option.map_some]
    rfl

theorem physAddr_of_no_link (hv : m.isVirtualAddressing = true)
    (hl : ((tlbOf acc).get m).links_ va = none) : (physAddr (tlbOf acc) va acc).run m =
      match ((tlbOf acc).get m).makeRoom with
      | .error e => .error e m
      | .ok c => match m.leafOf va acc with
        | .error e => .error e ((tlbOf acc).set c m)
        | .ok (ptr, i) => .ok (leafAddr va (touch acc (m.pteAt ptr)) i)
            ((tlbOf acc).set (c.emplaceFront va (leafAddr va (touch acc (m.pteAt ptr)) i))
              (m.writeMem (n := 4) ptr (touch acc (m.pteAt ptr)))) := by
  have hrun := LRUCache.insert_of_no_link (tlbOf acc) hl (translate va acc)
  rw [physAddr, run_bind_of_ok (EStateM.run_get m), if_pos hv]
  cases hroom : ((tlbOf acc).get m).makeRoom with
  | error e =>
    rw [hroom] at hrun
    rw [run_bind_of_error hrun]
  | ok c =>
    have hpte : ∀ p, ((tlbOf acc).set c m).pteAt p = m.pteAt p := fun p ↦ by
      rw [pteAt, pteAt, readMem, readMem, tlb_set_pmem]
    rw [hroom] at hrun
    dsimp only at hrun ⊢
    rw [translate_run (by rw [tlb_set_virt, hv]), (tlb_set_evolves acc c m).leafOf] at hrun
    cases hleaf : m.leafOf va acc with
    | error e =>
      rw [hleaf] at hrun
      rw [run_bind_of_error hrun]
    | ok r =>
      obtain ⟨ptr, i⟩ := r
      rw [hleaf] at hrun
      dsimp only at hrun ⊢
      rw [hpte, tlb_set_writeMem, (tlbOf acc).get_set, (tlbOf acc).set_set] at hrun
      rw [run_bind_of_ok hrun, run_bind_of_ok (EStateM.run_get _), (tlbOf acc).get_set,
        LRUCache.deref_emplaceFront]
      rfl

end

section

variable {acc : AccessType} {m : MMU} {c : LRUCache U32 PhysAddr} {a : U32}

theorem mark_of_ok {ptr i : ℕ} (hl : m.leafOf a acc = .ok (ptr, i)) :
    m.mark acc a = m.writeMem (n := 4) ptr (touch acc (m.pteAt ptr)) := by
  rw [mark, hl]

theorem mark_of_error {e : Stop} (hl : m.leafOf a acc = .error e) : m.mark acc a = m := by
  rw [mark, hl]

theorem mark_of_settled {pa : U64} (h : m.Settled a acc pa) : m.mark acc a = m := by
  obtain ⟨ptr, i, hl, ht, -⟩ := h
  rw [mark_of_ok hl, ht, writeMem, pteAt, readMem, Bytes.write_read_self]

theorem mark_evolves (acc : AccessType) (m : MMU) (a : U32) : TablesEvolve m (m.mark acc a) := by
  cases hl : m.leafOf a acc with
  | error e =>
    rw [mark_of_error hl]
    exact ⟨rfl, rfl, fun _ _ ↦ .inl rfl⟩
  | ok r =>
    rw [mark_of_ok hl]
    exact tablesEvolve_touch hl

theorem leafAddr_touch (acc : AccessType) (a pte : U32) (i : ℕ) :
    leafAddr a (touch acc pte) i = leafAddr a pte i := leafAddr_congr (touch_ushiftRight acc pte) i

theorem physOf_eq_ok {pa : U64} : m.physOf acc a = .ok pa ↔
    ∃ ptr i, m.leafOf a acc = .ok (ptr, i) ∧ leafAddr a (m.pteAt ptr) i = pa := by
  rw [physOf, bind_eq_ok]
  constructor
  · rintro ⟨⟨ptr, i⟩, hl, h⟩
    exact ⟨ptr, i, hl, Except.ok.inj h⟩
  · rintro ⟨ptr, i, hl, rfl⟩
    exact ⟨(ptr, i), hl, rfl⟩

theorem leafOf_of_physOf {e : Stop} (h : m.physOf acc a = .error e) : m.leafOf a acc = .error e := by
  rw [physOf] at h
  rcases bind_error h with hl | ⟨r, -, hr⟩
  · exact hl
  · cases hr

theorem settled_mark {pa : U64} (h : m.physOf acc a = .ok pa) : (m.mark acc a).Settled a acc pa := by
  obtain ⟨ptr, i, hl, rfl⟩ := physOf_eq_ok.mp h
  rw [mark_of_ok hl, ← leafAddr_touch acc]
  exact settled_touch hl

theorem Settled.physOf {pa : U64} (h : m.Settled a acc pa) : m.physOf acc a = .ok pa := by
  obtain ⟨ptr, i, hl, -, rfl⟩ := h
  exact physOf_eq_ok.mpr ⟨ptr, i, hl, rfl⟩

theorem TablesEvolve.physOf {m' : MMU} (h : TablesEvolve m m') (acc : AccessType) (a : U32) :
    m'.physOf acc a = m.physOf acc a := by
  cases hp : m.physOf acc a with
  | error e =>
    rw [MMU.physOf, h.leafOf, leafOf_of_physOf hp]
    rfl
  | ok pa =>
    obtain ⟨ptr, i, hl, rfl⟩ := physOf_eq_ok.mp hp
    have he := h.words ptr ⟨a, walk_mem (leafOf_eq_ok.mp hl).1⟩
    exact physOf_eq_ok.mpr ⟨ptr, i, by rw [h.leafOf, hl], leafAddr_congr he.ushiftRight i⟩

/-- The address of an access comes from an entry of the TLB, or from the page table. -/
theorem physAddr_cases (hv : m.isVirtualAddressing = true) (hc : c.Usable) (a : U32) :
    (∃ pa c', c.Maps a pa ∧
      (physAddr (tlbOf acc) a acc).run ((tlbOf acc).set c m) = .ok pa ((tlbOf acc).set c' m) ∧
      c'.Usable ∧ ∀ va v, c'.Maps va v → c.Maps va v) ∨
    (∀ e, m.physOf acc a = .error e → ∃ c',
      (physAddr (tlbOf acc) a acc).run ((tlbOf acc).set c m) = .error e ((tlbOf acc).set c' m) ∧
      c'.Valid ∧ ∀ va v, c'.Maps va v → c.Maps va v) ∧
    ∀ pa, m.physOf acc a = .ok pa → ∃ c',
      (physAddr (tlbOf acc) a acc).run ((tlbOf acc).set c m) =
        .ok pa ((tlbOf acc).set c' (m.mark acc a)) ∧
      c'.Usable ∧ ∀ va v, c'.Maps va v → (va = a ∧ v = pa) ∨ c.Maps va v := by
  have hget : (tlbOf acc).get ((tlbOf acc).set c m) = c := (tlbOf acc).get_set c m
  have hvc : ((tlbOf acc).set c m).isVirtualAddressing = true := by rw [tlb_set_virt, hv]
  cases hl : c.links_ a with
  | some addr =>
    obtain ⟨c', v, hrun, hcv, hmap, hd, he, -⟩ :=
      LRUCache.insert_hit (tlbOf acc) (s := (tlbOf acc).set c m) (by rw [hget]; exact hc.valid)
        (by rw [hget]; exact hl) (translate a acc)
    rw [hget] at hmap he
    rw [(tlbOf acc).set_set] at hrun
    refine .inl ⟨v, c', hmap, ?_, LRUCache.usable_of_deref hcv hd, ?_⟩
    · rw [physAddr, run_bind_of_ok (EStateM.run_get _), if_pos hvc, run_bind_of_ok hrun,
        run_bind_of_ok (EStateM.run_get _), (tlbOf acc).get_set, hd]
      rfl
    · rintro va v' ⟨e, hmem, hr⟩
      exact ⟨e, (he e).mp hmem, hr⟩
  | none =>
    have hphys := @physAddr_of_no_link _ acc a hvc (by rw [hget]; exact hl)
    obtain ⟨c₁, hroom, hcv, -, hlen, hsub, -⟩ := LRUCache.makeRoom_spec hc.valid hc.notStuck
    rw [hget, hroom] at hphys
    dsimp only at hphys
    rw [(tlb_set_evolves acc c m).leafOf] at hphys
    refine .inr ⟨fun e he ↦ ?_, fun pa hpa ↦ ?_⟩
    · rw [leafOf_of_physOf he] at hphys
      dsimp only at hphys
      rw [(tlbOf acc).set_set] at hphys
      exact ⟨c₁, hphys, hcv, fun va v ⟨e, hmem, hr⟩ ↦ ⟨e, hsub e hmem, hr⟩⟩
    · obtain ⟨ptr, i, hp, rfl⟩ := physOf_eq_ok.mp hpa
      have hpte : ((tlbOf acc).set c m).pteAt ptr = m.pteAt ptr := by
        rw [pteAt, pteAt, readMem, readMem, tlb_set_pmem]
      rw [hp] at hphys
      dsimp only at hphys
      rw [hpte, leafAddr_touch, tlb_set_writeMem, (tlbOf acc).set_set, ← mark_of_ok hp] at hphys
      have hk := (LRUCache.links_eq_none hc.valid).mp hl
      have hvalid := LRUCache.emplaceFront_valid hcv hlen (fun e he ↦ hk e (hsub e he))
        (leafAddr a (m.pteAt ptr) i)
      refine ⟨_, hphys, LRUCache.usable_emplaceFront hvalid, fun va v hm ↦ ?_⟩
      rcases LRUCache.maps_emplaceFront.mp hm with ⟨hva, hv⟩ | ⟨e, he, hr⟩
      · exact .inl ⟨hva, hv⟩
      · exact .inr ⟨e, hsub e he, hr⟩

end

end MMU

end RiscvSim
