import RiscvSim.Stops

namespace RiscvSim

open Isa Ir State Results Simulation SingleStep

namespace MMU

/-- How many words the constructor reads at `va`, the last of them a terminator or a word that it
cannot fetch or decode. -/
def lineLength (mmu : MMU) : ℕ → U32 → ℕ
  | 0, _ => 0
  | fuel + 1, va => match mmu.fetchInst va with
    | .error _ => 1
    | .ok inst => if inst.isTerminator then 1 else lineLength mmu fuel (va + 4) + 1

variable {mmu mmu' : MMU} {fuel : ℕ} {va : U32} {inst : Inst}

variable (fuel) in
theorem line_error {e : Stop} (h : mmu.fetchInst va = .error e) :
    mmu.lineLength (fuel + 1) va = 1 ∧ mmu.buildFrom (fuel + 1) va = .error e := by
  refine ⟨by rw [lineLength, h], ?_⟩
  rw [buildFrom, h]
  rfl

variable (fuel) in
theorem line_terminator (h : mmu.fetchInst va = .ok inst) (ht : inst.isTerminator = true) :
    mmu.lineLength (fuel + 1) va = 1 ∧ mmu.buildFrom (fuel + 1) va = .ok [inst] := by
  constructor
  · rw [lineLength, h]
    exact if_pos ht
  · refine bind_eq_ok.mpr ⟨inst, h, ?_⟩
    rw [if_pos ht]
    rfl

variable (fuel) in
theorem line_next (h : mmu.fetchInst va = .ok inst) (ht : inst.isTerminator = false) :
    mmu.lineLength (fuel + 1) va = mmu.lineLength fuel (va + 4) + 1 ∧
      mmu.buildFrom (fuel + 1) va = (mmu.buildFrom fuel (va + 4)).map (inst :: ·) := by
  have hf : ¬ inst.isTerminator = true := by
    rw [ht]
    exact Bool.false_ne_true
  constructor
  · rw [lineLength, h]
    exact if_neg hf
  · rw [buildFrom, h]
    change (if _ then _ else _) = _
    rw [if_neg hf]
    cases mmu.buildFrom fuel (va + 4) <;> rfl

theorem lineLength_of_ok {insts : List Inst} (h : mmu.buildFrom fuel va = .ok insts) :
    mmu.lineLength fuel va = insts.length := by
  induction fuel generalizing va insts with
  | zero => cases h
  | succ fuel ih =>
    cases hi : mmu.fetchInst va with
    | error e =>
      rw [(line_error fuel hi).2] at h
      cases h
    | ok inst =>
      cases ht : inst.isTerminator with
      | true =>
        rw [(line_terminator fuel hi ht).2] at h
        cases h
        exact (line_terminator fuel hi ht).1
      | false =>
        rw [(line_next fuel hi ht).2] at h
        cases hr : mmu.buildFrom fuel (va + 4) with
        | error e =>
          rw [hr] at h
          cases h
        | ok rest =>
          rw [hr] at h
          cases h
          rw [(line_next fuel hi ht).1, ih hr, List.length_cons]

theorem line_congr (hs : mmu'.pmem_size_ = mmu.pmem_size_)
    (hb : SameWords mmu mmu' va (mmu.lineLength fuel va)) :
    mmu'.lineLength fuel va = mmu.lineLength fuel va ∧
      mmu'.buildFrom fuel va = mmu.buildFrom fuel va := by
  induction fuel generalizing va with
  | zero => exact ⟨rfl, rfl⟩
  | succ fuel ih =>
    have hhead : ∀ n, mmu.lineLength (fuel + 1) va = n + 1 → mmu'.fetchInst va = mmu.fetchInst va := by
      intro n hn
      rw [hn] at hb
      exact fetchInst_congr hs fun b hl hu ↦ hb.head hl hu
    cases hi : mmu.fetchInst va with
    | error e =>
      have hi' := (hhead 0 (line_error fuel hi).1).trans hi
      rw [(line_error fuel hi).1, (line_error fuel hi).2, (line_error fuel hi').1, (line_error fuel hi').2]
      exact ⟨rfl, rfl⟩
    | ok inst =>
      cases ht : inst.isTerminator with
      | true =>
        have hi' := (hhead 0 (line_terminator fuel hi ht).1).trans hi
        rw [(line_terminator fuel hi ht).1, (line_terminator fuel hi ht).2, (line_terminator fuel hi' ht).1,
          (line_terminator fuel hi' ht).2]
        exact ⟨rfl, rfl⟩
      | false =>
        have hi' := (hhead _ (line_next fuel hi ht).1).trans hi
        rw [(line_next fuel hi ht).1] at hb
        obtain ⟨hlen, hbuild⟩ := ih hb.tail
        rw [(line_next fuel hi ht).1, (line_next fuel hi ht).2, (line_next fuel hi' ht).1, (line_next fuel hi' ht).2, hlen,
          hbuild]
        exact ⟨rfl, rfl⟩

end MMU

/-- The words fetched since the last FENCE, and those the constructor reads at the program counter. -/
def prefetched (host : Host) (words : Set U32) (s : State) : Set U32 :=
  words ∪ wordsOf s.pc (s.mmu.lineLength host.fuel s.pc)

/-- For `n` steps addressing stays physical, and no step changes a word that was fetched since the
last FENCE, be it ahead of the program counter. -/
def Settled (host : Host) : ℕ → Set U32 → State → Prop
  | 0, _, s => s.mmu.isVirtualAddressing = false
  | n + 1, words, s => s.mmu.isVirtualAddressing = false ∧ ∀ inst s',
      s.mmu.fetchInst s.pc = .ok inst → step.run s = .ok () s' →
        MMU.SameBytes (prefetched host words s) s.mmu s'.mmu ∧
          Settled host n {w | inst.func_ ≠ .ExecFENCE ∧ w ∈ prefetched host words s} s'

/-- Step `m` of the machine begins a trace: it is the first one, or comes after a terminator. -/
def Heads (s : State) : ℕ → Prop
  | 0 => True
  | m + 1 => ∃ u inst, (iterate step m).run s = .ok () u ∧ u.mmu.fetchInst u.pc = .ok inst ∧
      inst.isTerminator = true

theorem heads_add {s t : State} {m : ℕ} (h : (iterate step m).run s = .ok () t) (j : ℕ) :
    Heads s (m + (j + 1)) ↔ Heads t (j + 1) := by
  rw [← Nat.add_assoc]
  simp only [Heads, iterate_add h]

theorem prefetched_mono (host : Host) {words words' : Set U32} (h : words' ⊆ words) (s : State) :
    prefetched host words' s ⊆ prefetched host words s :=
  Set.union_subset_union_left _ h

theorem MMU.SameBytes.mono {words words' : Set U32} {m m' : MMU} (h : MMU.SameBytes words m m')
    (hw : words' ⊆ words) : MMU.SameBytes words' m m' := fun w hw' ↦ h w (hw hw')

theorem MMU.SameBytes.trans {words : Set U32} {m m' m'' : MMU} (h : MMU.SameBytes words m m')
    (h' : MMU.SameBytes words m' m'') : MMU.SameBytes words m m'' :=
  fun w hw b hl hu ↦ (h' w hw b hl hu).trans (h w hw b hl hu)

namespace Settled

variable {host : Host} {words : Set U32} {n : ℕ} {s s' t t' : State}

theorem bare (h : Settled host n words s) : s.mmu.isVirtualAddressing = false := by
  cases n with
  | zero => exact h
  | succ n => exact h.1

theorem mono {words' : Set U32} (h : Settled host n words s) (hw : words' ⊆ words) :
    Settled host n words' s := by
  induction n generalizing words words' s with
  | zero => exact h
  | succ n ih =>
    refine ⟨h.1, fun inst s' hi hs ↦ ?_⟩
    obtain ⟨hb, hn⟩ := h.2 inst s' hi hs
    have hsub := prefetched_mono host hw s
    exact ⟨hb.mono hsub, ih hn fun w hw' ↦ ⟨hw'.1, hsub hw'.2⟩⟩

theorem le (h : Settled host n words s) {k : ℕ} (hk : k ≤ n) : Settled host k words s := by
  induction k generalizing n words s with
  | zero => exact h.bare
  | succ k ih =>
    obtain ⟨n, rfl⟩ : ∃ m, n = m + 1 := ⟨n - 1, by omega⟩
    refine ⟨h.1, fun inst s' hi hs ↦ ?_⟩
    obtain ⟨hb, hn⟩ := h.2 inst s' hi hs
    exact ⟨hb, ih hn (Nat.le_of_succ_le_succ hk)⟩

theorem extend (h : Settled host n words s) (ht : (iterate step n).run s = .ok () t) {e : Stop}
    (hstop : step.run t = .error e t') (k : ℕ) : Settled host (n + k) words s := by
  induction n generalizing words s with
  | zero =>
    cases ht
    cases k with
    | zero => exact h
    | succ k =>
      rw [Nat.zero_add]
      refine ⟨h, fun inst s' _ hs ↦ ?_⟩
      rw [hstop] at hs
      cases hs
  | succ n ih =>
    obtain ⟨u, s₁, hs₁, hr⟩ := run_bind_eq_ok.mp ht
    rw [Nat.add_right_comm]
    refine ⟨h.1, fun inst s' hi hs ↦ ?_⟩
    obtain ⟨hb, hn⟩ := h.2 inst s' hi hs
    rw [hs₁] at hs
    cases hs
    exact ⟨hb, ih hn hr⟩

end Settled

theorem step_eq_ok {s s' : State} (hv : s.mmu.isVirtualAddressing = false)
    (h : step.run s = .ok () s') : ∃ inst, s.mmu.fetchInst s.pc = .ok inst ∧
      finish ((inst.func_.exec inst 0).run s) = .ok () s' := by
  rw [step_bare hv] at h
  cases hi : s.mmu.fetchInst s.pc with
  | error e =>
    rw [hi] at h
    cases h
  | ok inst =>
    rw [hi] at h
    exact ⟨inst, rfl, h⟩

theorem finish_eq_ok {inst : Inst} {s s' : State}
    (h : finish ((inst.func_.exec inst 0).run s) = .ok () s') (ht : inst.isTerminator = false) :
    ∃ s₁, (inst.func_.exec inst 0).run s = .ok .nextInst s₁ ∧ s' = s₁.advance 4 := by
  cases hx : (inst.func_.exec inst 0).run s with
  | error e s₁ =>
    rw [hx] at h
    cases h
  | ok flow s₁ =>
    have hflow := ExecFunc.exec_flow hx
    rw [← isTerminator_eq, if_neg (by rw [ht]; exact Bool.false_ne_true)] at hflow
    subst hflow
    rw [hx] at h
    cases h
    exact ⟨s₁, rfl, rfl⟩

theorem step_keeps_size {inst : Inst} {s s₁ : State}
    (hx : (inst.func_.exec inst 0).run s = .ok .nextInst s₁) :
    (s₁.advance 4).mmu.pmem_size_ = s.mmu.pmem_size_ := by
  have hsize : s₁.mmu.pmem_size_ = s.mmu.pmem_size_ :=
    (ExecFunc.exec_keeps_size inst.func_ inst 0).of_ok hx
  exact hsize

theorem not_fence_of_next {inst : Inst} {s s₁ : State}
    (hx : (inst.func_.exec inst 0).run s = .ok .nextInst s₁) : inst.func_ ≠ .ExecFENCE := by
  intro hf
  rw [hf] at hx
  cases hx

theorem wordsOf_tail (va : U32) (n : ℕ) : wordsOf (va + 4) n ⊆ wordsOf va (n + 1) := by
  rintro w ⟨j, hj, rfl⟩
  exact ⟨j + 1, Nat.succ_lt_succ hj, (MMU.word_succ va j).symm⟩

theorem heads_one {s : State} {inst : Inst} (hi : s.mmu.fetchInst s.pc = .ok inst) :
    Heads s 1 ↔ inst.isTerminator = true := by
  constructor
  · rintro ⟨u, inst', hu, hi', ht⟩
    cases hu
    rw [hi] at hi'
    cases hi'
    exact ht
  · exact fun ht ↦ ⟨s, inst, rfl, hi, ht⟩

namespace Settled

variable {host : Host} {words : Set U32} {n k fuel : ℕ} {s t : State}

theorem ahead (h : Settled host n words s) : Settled host n (prefetched host words s) s := by
  cases n with
  | zero => exact h
  | succ n =>
    have hsame : prefetched host (prefetched host words s) s = prefetched host words s := by
      rw [prefetched, prefetched, Set.union_assoc, Set.union_self]
    refine ⟨h.1, fun inst s' hi hs ↦ ?_⟩
    rw [hsame]
    exact h.2 inst s' hi hs

theorem next {inst : Inst} (h : Settled host (n + 1) words s) (hi : s.mmu.fetchInst s.pc = .ok inst)
    {s₁ : State} (hx : (inst.func_.exec inst 0).run s = .ok .nextInst s₁) :
    step.run s = .ok () (s₁.advance 4) ∧ (s₁.advance 4).pc = s.pc + 4 ∧
      MMU.SameBytes words s.mmu (s₁.advance 4).mmu ∧ Settled host n words (s₁.advance 4) := by
  have hstep : step.run s = .ok () (s₁.advance 4) := by
    rw [step_bare h.1, hi]
    dsimp only
    rw [hx]
    rfl
  obtain ⟨hb, hn⟩ := h.2 inst _ hi hstep
  have hsub : words ⊆ prefetched host words s := Set.subset_union_left
  refine ⟨hstep, ?_, hb.mono hsub, hn.mono fun w hw ↦ ⟨not_fence_of_next hx, hsub hw⟩⟩
  change s₁.pc + 4 = s.pc + 4
  rw [ExecFunc.exec_next_pc hx]

/-- On the line the constructor reads, the machine goes from word to word and begins no trace. -/
theorem straight (h : Settled host n words s) (hk : k ≤ n) (hf : k < fuel)
    (hw : wordsOf s.pc (s.mmu.lineLength fuel s.pc) ⊆ words)
    (hrun : (iterate step k).run s = .ok () t)
    (hline : k < s.mmu.lineLength fuel s.pc ∨ ∃ e, s.mmu.buildFrom fuel s.pc = .error e) :
    (∀ e, t.mmu.buildFrom (fuel - k) t.pc = .error e ↔ s.mmu.buildFrom fuel s.pc = .error e) ∧
      (∀ j, 0 < j → j ≤ k → ¬ Heads s j) ∧ t.mmu.isVirtualAddressing = false := by
  induction k generalizing n fuel s with
  | zero =>
    cases hrun
    exact ⟨fun e ↦ Iff.rfl, fun j hj hjk ↦ absurd hj (Nat.not_lt_of_le hjk), h.bare⟩
  | succ k ih =>
    obtain ⟨n, rfl⟩ : ∃ m, n = m + 1 := ⟨n - 1, by omega⟩
    obtain ⟨fuel, rfl⟩ : ∃ m, fuel = m + 1 := ⟨fuel - 1, by omega⟩
    obtain ⟨u, s', hs, hr⟩ := run_bind_eq_ok.mp hrun
    obtain ⟨inst, hi, hfin⟩ := step_eq_ok h.1 hs
    cases ht : inst.isTerminator with
    | true =>
      obtain ⟨hlen, hbuild⟩ := MMU.line_terminator fuel hi ht
      rw [hlen, hbuild] at hline
      rcases hline with hlt | ⟨e, he⟩
      · omega
      · cases he
    | false =>
      obtain ⟨s₁, hx, rfl⟩ := finish_eq_ok hfin ht
      obtain ⟨-, hpc, hb, hn⟩ := h.next hi hx
      obtain ⟨hlen, hbuild⟩ := MMU.line_next fuel hi ht
      rw [hlen] at hw
      have hsame := (TraceCache.sameWords_of_sameBytes hb hw).tail
      obtain ⟨hlen', hbuild'⟩ := MMU.line_congr (step_keeps_size hx) hsame
      rw [← hpc] at hlen' hbuild'
      have hiff : ∀ e, (s₁.advance 4).mmu.buildFrom fuel (s₁.advance 4).pc = .error e ↔
          s.mmu.buildFrom (fuel + 1) s.pc = .error e := by
        intro e
        rw [hbuild, hbuild', hpc]
        cases s.mmu.buildFrom fuel (s.pc + 4) <;> simp [Except.map]
      rw [hlen] at hline
      have hf' : k < fuel := Nat.lt_of_succ_lt_succ hf
      obtain ⟨hback, hheads, hv⟩ := ih hn (Nat.le_of_succ_le_succ hk) hf' (by rw [hlen', hpc]; exact (wordsOf_tail _ _).trans hw) hr
        (hline.imp (fun hlt ↦ by rw [hlen', hpc]; omega) fun ⟨e, he⟩ ↦ ⟨e, (hiff e).mpr he⟩)
      refine ⟨fun e ↦ ?_, fun j hj hjk ↦ ?_, hv⟩
      · rw [Nat.add_sub_add_right]
        exact (hback e).trans (hiff e)
      · cases j with
        | zero => exact absurd hj (Nat.lt_irrefl 0)
        | succ j =>
          cases j with
          | zero =>
            rw [heads_one hi, ht]
            exact Bool.false_ne_true
          | succ j =>
            rw [Nat.add_comm (j + 1) 1, heads_add (iterate_one.mpr hs)]
            exact hheads (j + 1) (Nat.succ_pos j) (Nat.le_of_succ_le_succ hjk)

theorem finds {insts : List Inst} (h : Settled host n words s) (hn : insts.length ≤ n)
    (hc : s.mmu.CodeAt s.pc insts) (hw : wordsOf s.pc insts.length ⊆ words) : Finds insts s := by
  induction insts generalizing n s with
  | nil => exact trivial
  | cons inst rest ih =>
    obtain ⟨n, rfl⟩ : ∃ m, n = m + 1 := ⟨n - 1, by simp only [List.length_cons] at hn; omega⟩
    refine ⟨h.1, hc.1, fun s₁ hx ↦ ?_⟩
    obtain ⟨-, hpc, hb, hn'⟩ := h.next hc.1 hx
    have hsame := (TraceCache.sameWords_of_sameBytes hb hw).tail
    refine ih hn' (Nat.le_of_succ_le_succ hn) ?_ ?_
    · rw [hpc]
      exact hc.2.congr (step_keeps_size hx) hsame
    · rw [hpc]
      exact (wordsOf_tail _ _).trans hw

/-- After a trace that is fetched before it the machine begins another one, and the fetched words
are as they were. -/
theorem through {insts : List Inst} (htr : IsTrace insts) (h : Settled host n words s)
    (hn : insts.length ≤ n) (hc : s.mmu.CodeAt s.pc insts) (hw : wordsOf s.pc insts.length ⊆ words)
    (hrun : (iterate step insts.length).run s = .ok () t) :
    MMU.SameBytes words s.mmu t.mmu ∧ Heads s insts.length ∧
      Settled host (n - insts.length) {w | ¬ EndsInFence insts ∧ w ∈ words} t := by
  induction insts generalizing n words s with
  | nil => exact absurd rfl htr.ne_nil
  | cons inst rest ih =>
    obtain ⟨n, rfl⟩ : ∃ m, n = m + 1 := ⟨n - 1, by simp only [List.length_cons] at hn; omega⟩
    obtain ⟨u, s', hs, hr⟩ := run_bind_eq_ok.mp hrun
    by_cases hrest : rest = []
    · subst hrest
      cases hr
      obtain ⟨hb, hn'⟩ := h.2 inst t hc.1 hs
      have hsub : words ⊆ prefetched host words s := Set.subset_union_left
      refine ⟨hb.mono hsub, (heads_one hc.1).mpr htr, hn'.mono fun w hw' ↦ ⟨fun hf ↦ ?_, hsub hw'.2⟩⟩
      exact hw'.1 ⟨inst, rfl, hf⟩
    · obtain ⟨ht, htr'⟩ := (isTrace_cons hrest).mp htr
      obtain ⟨inst', hi, hfin⟩ := step_eq_ok h.1 hs
      rw [hc.1] at hi
      cases hi
      obtain ⟨s₁, hx, rfl⟩ := finish_eq_ok hfin ht
      obtain ⟨-, hpc, hb, hn'⟩ := h.next hc.1 hx
      have hsame := (TraceCache.sameWords_of_sameBytes hb hw).tail
      have hc' := hc.2.congr (step_keeps_size hx) hsame
      rw [← hpc] at hc'
      obtain ⟨hb', hhead, hset⟩ := ih htr' hn' (Nat.le_of_succ_le_succ hn) hc'
        (by rw [hpc]; exact (wordsOf_tail _ _).trans hw) hr
      refine ⟨hb.trans hb', ?_, ?_⟩
      · obtain ⟨k, hk⟩ : ∃ k, rest.length = k + 1 :=
          ⟨rest.length - 1, by have := List.length_pos_of_ne_nil hrest; omega⟩
        rw [List.length_cons, hk, Nat.add_comm (k + 1) 1, heads_add (iterate_one.mpr hs), ← hk]
        exact hhead
      · rw [List.length_cons, Nat.add_sub_add_right, endsInFence_cons hrest]
        exact hset

theorem runs {insts : List Inst} (h : ∀ n, Settled host n words s)
    (hb : s.mmu.buildFrom host.fuel s.pc = .ok insts) {visited : List ℕ}
    (hx : (execFrom 0 insts).run s = .ok visited t) :
    (iterate step insts.length).run s = .ok () t ∧ Heads s insts.length ∧
      MMU.SameBytes (fetchedAfter words s.pc insts) s.mmu t.mmu ∧
      ∀ n, Settled host n (fetchedAfter words s.pc insts) t := by
  obtain ⟨htr, hc⟩ := MMU.buildFrom_ok hb
  have hw : prefetched host words s = words ∪ wordsOf s.pc insts.length := by
    rw [prefetched, MMU.lineLength_of_ok hb]
  have hset : ∀ n, Settled host n (words ∪ wordsOf s.pc insts.length) s := by
    intro n
    rw [← hw]
    exact (h n).ahead
  have hfind := (hset insts.length).finds le_rfl hc Set.subset_union_right
  have hpc : s.advance (BitVec.ofNat 32 (4 * 0)) = s := advance_zero s
  have hrun := steps_of_execFrom (k := 0) htr (by rwa [hpc]) hx
  rw [hpc] at hrun
  have hall := fun n ↦ (hset (n + insts.length)).through htr (Nat.le_add_left _ n) hc
    Set.subset_union_right hrun
  refine ⟨hrun, (hall 0).2.1, (hall 0).1.mono fun w hw ↦ hw.2, fun n ↦ ?_⟩
  have hn := (hall n).2.2
  rw [Nat.add_sub_cancel] at hn
  exact hn

end Settled

variable {host : Host} {words : Set U32} {s t : State}

theorem Uncached.iteration_of_error (hv : s.mmu.isVirtualAddressing = false) {e : Stop}
    (hb : s.mmu.buildFrom host.fuel s.pc = .error e) :
    (Uncached.iteration host).run s = .error e s := by
  have hnew := new_bare hv host
  rw [hb] at hnew
  rw [Uncached.iteration, run_bind_of_error hnew]

theorem Uncached.iteration_of_ok (hv : s.mmu.isVirtualAddressing = false) {insts : List Inst}
    (hb : s.mmu.buildFrom host.fuel s.pc = .ok insts) :
    (Uncached.iteration host).run s = (do
      let _ ← execFrom 0 insts
      modify fun s ↦
        { s with executed_insts := s.executed_insts + BitVec.ofNat 64 insts.length } : Run Unit).run s := by
  have hnew := new_bare hv host
  rw [hb] at hnew
  rw [Uncached.iteration, run_bind_of_ok hnew]

theorem Settled.quiet (h : ∀ n, Settled host n words s) : Quiet host 1 words s := by
  refine ⟨h 0, fun trace s₀ s' hnew hrun ↦ ?_⟩
  have hv := (h 0).bare
  rw [new_bare hv] at hnew
  cases hb : s.mmu.buildFrom host.fuel s.pc with
  | error e =>
    rw [hb] at hnew
    cases hnew
  | ok insts =>
    rw [hb] at hnew
    cases hnew
    rw [Uncached.iteration_of_ok hv hb] at hrun
    obtain ⟨visited, t, hx, hr⟩ := run_bind_eq_ok.mp hrun
    cases hr
    obtain ⟨-, -, hbytes, hset⟩ := Settled.runs h hb hx
    exact ⟨hbytes, (hset 0).bare⟩

/-- The machine, `n` steps on, begins the last trace after `m` of them, in `b`. -/
structure LastHead (s : State) (n m : ℕ) (b : State) : Prop where
  le : m ≤ n
  reaches : (iterate step m).run s = .ok () b
  heads : Heads s m
  last : ∀ j, m < j → j ≤ n → ¬ Heads s j

theorem LastHead.add {s t b : State} {n m k : ℕ} (h : LastHead t n m b)
    (hrun : (iterate step k).run s = .ok () t) (hk : Heads s k) : LastHead s (k + n) (k + m) b where
  le := Nat.add_le_add_left h.le k
  reaches := by
    rw [iterate_add hrun]
    exact h.reaches
  heads := by
    cases m with
    | zero => exact hk
    | succ m => exact (heads_add hrun m).mpr h.heads
  last j hj hjn := by
    obtain ⟨i, rfl⟩ : ∃ i, j = k + (i + 1) := ⟨j - k - 1, by omega⟩
    rw [heads_add hrun]
    exact h.last (i + 1) (by omega) (by omega)

/-- Where the machine stops on the line the constructor reads, the trace it began last is this one;
and the constructor fails there if it could not fetch. -/
theorem Settled.last_head {n : ℕ} (h : Settled host n words s) (hf : n < host.fuel)
    (hrun : (iterate step n).run s = .ok () t) {e : Stop} {t' : State} (hstop : step.run t = .error e t')
    (hline : n < s.mmu.lineLength host.fuel s.pc ∨ ∃ e, s.mmu.buildFrom host.fuel s.pc = .error e) :
    LastHead s n 0 s ∧
      ∀ f, t.mmu.fetchInst t.pc = .error f → s.mmu.buildFrom host.fuel s.pc = .error e := by
  obtain ⟨hback, hheads, hv⟩ := h.ahead.straight le_rfl hf Set.subset_union_right hrun hline
  refine ⟨⟨Nat.zero_le n, rfl, trivial, hheads⟩, fun f hfetch ↦ (hback e).mp ?_⟩
  rw [step_bare hv, hfetch] at hstop
  cases hstop
  obtain ⟨k, hk⟩ : ∃ k, host.fuel - n = k + 1 := ⟨host.fuel - n - 1, by omega⟩
  rw [hk]
  exact (MMU.line_error k hfetch).2

namespace Sim

variable {opts : Options}

def Ends (opts : Options) (host : Host) (s : State) (e : Stop) (u : State) : Prop :=
  ∃ k v, SameMachine u v ∧ ∀ fuel, (execute opts host (fuel + k)).run s = .error e v

theorem Ends.of_error {e : Stop} {u v : State} (hrun : (iteration opts host).run s = .error e v)
    (h : SameMachine u v) : Ends opts host s e u := by
  refine ⟨1, v, h, fun fuel ↦ ?_⟩
  rw [execute, run_bind_of_error hrun]

theorem Ends.next (hmax : opts.max_insts = 0) {e : Stop} {s' u : State}
    (hrun : (iteration opts host).run s = .ok () s') (h : Ends opts host s' e u) :
    Ends opts host s e u := by
  obtain ⟨k, v, huv, hk⟩ := h
  refine ⟨k + 1, v, huv, fun fuel ↦ ?_⟩
  rw [← Nat.add_assoc, execute, run_bind_of_ok hrun, run_bind_of_ok (EStateM.run_get s'),
    if_neg (fun hlim ↦ hlim.1 hmax)]
  exact hk fuel

/-- What the machine that takes single steps makes of a program, and what the loop makes of it: the
last trace is fetched whole before it is begun. -/
theorem ends_at_head (hjit : opts.jit = false) (hmax : opts.max_insts = 0) {n : ℕ} (hf : n < host.fuel)
    (hco : TraceCache.Coherent host words s) (hst : SameMachine s t)
    (hset : ∀ k, Settled host k words t) {u u' : State} {e : Stop}
    (hrun : (iterate step n).run t = .ok () u) (hstop : step.run u = .error e u') :
    ∃ m b, LastHead t n m b ∧
      (∀ f, u.mmu.fetchInst u.pc = .error f → b.mmu.buildFrom host.fuel b.pc = .error e) ∧
      (∀ insts, b.mmu.buildFrom host.fuel b.pc = .ok insts → Ends opts host s e (u'.withPC b.pc)) ∧
      ∀ f, b.mmu.buildFrom host.fuel b.pc = .error f → Ends opts host s f b := by
  induction n using Nat.strong_induction_on generalizing s t words with
  | _ n ih =>
    have hv := (hset 0).bare
    have halike := TraceCache.iteration_alike hjit hco hst (n := 0) (Settled.quiet hset)
    cases hb : t.mmu.buildFrom host.fuel t.pc with
    | error f =>
      obtain ⟨hhead, hfetch⟩ := (hset n).last_head hf hrun hstop (.inr ⟨f, hb⟩)
      rw [hb] at hfetch
      refine ⟨0, t, hhead, by rwa [hb], fun insts hi ↦ ?_, fun f' hf' ↦ ?_⟩
      · rw [hb] at hi
        cases hi
      · rw [hb] at hf'
        cases hf'
        rw [Uncached.iteration_of_error hv hb] at halike
        generalize hres : (iteration opts host).run s = res at halike
        cases halike with
        | error h => exact .of_error hres h.symm
    | ok insts =>
      obtain ⟨htr, hc⟩ := MMU.buildFrom_ok hb
      rw [Uncached.iteration_of_ok hv hb] at halike
      cases hx : (execFrom 0 insts).run t with
      | error e' v =>
        -- the machine stops within this trace
        have hpc : t.advance (BitVec.ofNat 32 (4 * 0)) = t := advance_zero t
        obtain ⟨k, w, w', hk, rfl⟩ := (execFrom_error_iff htr 0).mp hx
        rw [hpc] at hk
        have hfind := (hset insts.length).ahead.finds le_rfl hc (by
          rw [← MMU.lineLength_of_ok hb]
          exact Set.subset_union_right)
        obtain ⟨hreach, hthrow⟩ := hk.steps htr hfind
        obtain rfl : k = n := Nat.le_antisymm (le_of_iterate_stops hrun hstop hreach)
          (le_of_iterate_stops hreach hthrow hrun)
        rw [hrun] at hreach
        cases hreach
        rw [hstop] at hthrow
        cases hthrow
        have hlt : k < insts.length := by
          obtain ⟨inst, hi, -⟩ := hk
          exact (List.getElem?_eq_some_iff.mp hi).1
        obtain ⟨hhead, hfetch⟩ := (hset k).last_head hf hrun hstop
          (.inl (by rwa [MMU.lineLength_of_ok hb]))
        refine ⟨0, t, hhead, hfetch, fun _ _ ↦ ?_, fun f hf ↦ ?_⟩
        · rw [run_bind_of_error hx] at halike
          generalize hres : (iteration opts host).run s = res at halike
          cases halike with
          | error h => exact .of_error hres h.symm
        · rw [hb] at hf
          cases hf
      | ok visited t₁ =>
        -- it comes through, and begins the next one
        obtain ⟨hsteps, hheads, -, hset'⟩ := Settled.runs hset hb hx
        have hle := le_of_iterate_stops hrun hstop hsteps
        obtain ⟨k, rfl⟩ := Nat.exists_eq_add_of_le hle
        rw [iterate_add hsteps] at hrun
        have hpos := List.length_pos_of_ne_nil htr.ne_nil
        rw [run_bind_of_ok hx] at halike
        generalize hres : (iteration opts host).run s = res at halike
        cases halike with
        | @ok _ _ s' _ _ h =>
          obtain ⟨insts', hb', hco', hst', -⟩ := h
          rw [hb] at hb'
          cases hb'
          have hsame : SameMachine s' t₁ := hst'.trans ⟨rfl, rfl, rfl, rfl⟩
          obtain ⟨m, b, hhead, hfetch, hok, herr⟩ := ih k (by omega) (by omega) hco' hsame hset' hrun
          exact ⟨insts.length + m, b, hhead.add hsteps hheads, hfetch,
            fun i hi ↦ (hok i hi).next hmax hres, fun f hf ↦ (herr f hf).next hmax hres⟩

/-- The loop stops with the instructions done up to the last branch, jump or FENCE, where the
constructor fails to fetch the trace that follows; else it stops where the machine does. -/
theorem stops_fetched_ahead (hjit : opts.jit = false) (hmax : opts.max_insts = 0) {cap : ℕ} (hcap : 1 ≤ cap)
    (hcache : s.trace_cache = .new cap) {n : ℕ} (hf : n < host.fuel) (hset : Settled host n ∅ s)
    {t' : State} {e : Stop} (hrun : (iterate step n).run s = .ok () t)
    (hstop : step.run t = .error e t') : ∃ m b, LastHead s n m b ∧
      (∀ f, t.mmu.fetchInst t.pc = .error f → Ends opts host s e b) ∧
      (∀ insts, b.mmu.buildFrom host.fuel b.pc = .ok insts → Ends opts host s e (t'.withPC b.pc)) ∧
      ∀ f, b.mmu.buildFrom host.fuel b.pc = .error f → Ends opts host s f b := by
  have hall : ∀ k, Settled host k ∅ s := fun k ↦ by
    cases Nat.le_total n k with
    | inl hle =>
      obtain ⟨j, rfl⟩ := Nat.exists_eq_add_of_le hle
      exact hset.extend hrun hstop j
    | inr hle => exact hset.le hle
  obtain ⟨m, b, hhead, hfetch, hok, herr⟩ := ends_at_head hjit hmax hf (.new hcap hcache)
    (⟨rfl, rfl, rfl, rfl⟩ : SameMachine s s) hall hrun hstop
  exact ⟨m, b, hhead, fun f hi ↦ herr e (hfetch f hi), hok, herr⟩

/-- `addi a7, x0, 93`, the exit syscall, and no instruction after it. -/
def exitThenData : State :=
  let mem := Bytes.write (n := 4) (fun _ ↦ 0) 0 0x05d00893#32
  onePage (Bytes.write (n := 4) mem 4 0x00000073#32) (.new 1)

def exiting : State := { exitThenData with pc := 4, regs := exitThenData.regs.set 17 93 }

theorem exitThenData_addi : exitThenData.mmu.fetchInst 0 = .ok (genI ⟨.ADDI, by decide⟩ 17 0 93) := by
  have h : exitThenData.mmu.fetchInst 0 = .ok
      (readAs (formatOf ⟨.ADDI, by decide⟩) ⟨.ADDI, by decide⟩ 0x05d00893#32) :=
    MMU.fetchInst_of_selects (by decide) (by decide) ⟨rfl, rfl, fun _ _ ↦ rfl, nofun, trivial⟩
  rw [h]
  decide

theorem exitThenData_ecall : exitThenData.mmu.fetchInst 4 = .ok (genI .ECALL 0 0 0) := by
  have h : exitThenData.mmu.fetchInst 4 = .ok (readAs (formatOf .ECALL) .ECALL 0x00000073#32) :=
    MMU.fetchInst_of_selects (by decide) (by decide) ⟨rfl, rfl, fun _ _ ↦ rfl, nofun, ⟨⟨rfl, rfl⟩, rfl⟩⟩
  rw [h]
  decide

theorem exitThenData_data : exitThenData.mmu.fetchInst 8 =
    .error (.simException "Packed instructions are not supported!") := by
  rfl

theorem exitThenData_step : step.run exitThenData = .ok () exiting := by
  rw [step_bare (by decide), show exitThenData.mmu.fetchInst exitThenData.pc = _ from exitThenData_addi]
  rfl

theorem exiting_stops : step.run exiting = .error (.simException "Successfully finished!\n") exiting := by
  rw [step_bare (by decide), show exiting.mmu.fetchInst exiting.pc = _ from exitThenData_ecall]
  rfl

theorem exitThenData_run : (iterate step 1).run exitThenData = .ok () exiting :=
  iterate_one.mpr exitThenData_step

/-- The machine exits after one instruction; the loop stops for the word behind the exit, with
nothing done. -/
theorem exitThenData_suppressed : (iterate step 1).run exitThenData = .ok () exiting ∧
    step.run exiting = .error (.simException "Successfully finished!\n") exiting ∧
    exiting.regs.get 17 = 93 ∧ ∀ fuel, ∃ u : State, u.regs.get 17 = 0 ∧
      (execute ⟨false, 100, 0⟩ (idleHost 3) (fuel + 1)).run exitThenData =
        .error (.simException "Packed instructions are not supported!") u := by
  refine ⟨exitThenData_run, exiting_stops, rfl, fun fuel ↦ ?_⟩
  have hbuild : exitThenData.mmu.buildFrom (idleHost 3).fuel exitThenData.pc =
      .error (.simException "Packed instructions are not supported!") := by
    change exitThenData.mmu.buildFrom 3 0 = _
    rw [(MMU.line_next 2 exitThenData_addi rfl).2]
    change (exitThenData.mmu.buildFrom 2 4).map _ = _
    rw [(MMU.line_next 1 exitThenData_ecall rfl).2]
    change ((exitThenData.mmu.buildFrom 1 8).map _).map _ = _
    rw [(MMU.line_error 0 exitThenData_data).2]
    rfl
  have hco : TraceCache.Coherent (idleHost 3) ∅ exitThenData := .new (le_refl 1) rfl
  obtain ⟨c, hrefer⟩ := TraceCache.refer_error hco (by decide) hbuild
  exact ⟨{ exitThenData with trace_cache := c }, rfl,
    by rw [execute, iteration, run_bind_of_error (run_bind_of_error hrefer)]⟩

theorem settled_exitThenData : Settled (idleHost 3) 1 ∅ exitThenData := by
  refine ⟨by decide, fun inst s' _ hs ↦ ?_⟩
  rw [exitThenData_step] at hs
  cases hs
  exact ⟨fun _ _ _ _ _ ↦ rfl, (by decide : exiting.mmu.isVirtualAddressing = false)⟩

theorem stops_fetched_ahead_exit : ∃ m b, LastHead exitThenData 1 m b ∧
    (∀ insts, b.mmu.buildFrom 3 b.pc = .ok insts → Ends ⟨false, 100, 0⟩ (idleHost 3) exitThenData
      (.simException "Successfully finished!\n") (exiting.withPC b.pc)) ∧
    ∀ f, b.mmu.buildFrom 3 b.pc = .error f → Ends ⟨false, 100, 0⟩ (idleHost 3) exitThenData f b := by
  have hcache : exitThenData.trace_cache = .new 1 := rfl
  have hjit : (⟨false, 100, 0⟩ : Options).jit = false := rfl
  obtain ⟨m, b, hhead, -, hends⟩ := stops_fetched_ahead hjit rfl le_rfl hcache (by decide : 1 < 3)
    settled_exitThenData exitThenData_run exiting_stops
  exact ⟨m, b, hhead, hends⟩

end Sim

end RiscvSim
