import RiscvSim.Library.X86Run

namespace RiscvSim.X86

open Results

variable {F σ ε : Type}

/-- A run of at most `n` steps that returns ends in a machine with `P`. -/
def Ends (env : Env F σ ε) (spent : ε) (code : List (Item F)) (n : ℕ) (rest : List (Item F))
    (m : Machine σ) (P : Machine σ → Prop) : Prop :=
  ∀ fuel ≤ n, ∀ m', (run env spent code fuel rest).run m = .ok () m' → P m'

/-- A run with fuel for `n` steps stops, if it does not return, for a reason in `E`. -/
def Halts (env : Env F σ ε) (spent : ε) (code : List (Item F)) (E : ε → Prop) (n : ℕ)
    (rest : List (Item F)) : Prop :=
  ∀ fuel, n ≤ fuel → ∀ m e m', (run env spent code fuel rest).run m = .error e m' → E e

variable {env : Env F σ ε} {spent : ε} {code c rest rest' : List (Item F)} {n : ℕ} {m : Machine σ}

theorem run_jmp {l : ℕ} (ha : after l code = some rest') (fuel : ℕ) :
    run env spent code (fuel + 1) (.inst (.jmp l) :: rest) = run env spent code fuel rest' := by
  rw [run, jump, ha]
  rfl

theorem run_jcc {l : ℕ} (ha : after l code = some rest') {f : Flags} (hf : m.flags = some f)
    (cond : Cond) (fuel : ℕ) :
    (run env spent code (fuel + 1) (.inst (.jcc cond l) :: rest)).run m =
      (run env spent code fuel (if cond.holds f then rest' else rest)).run m := by
  rw [run, run_bind_of_ok (EStateM.run_get m), hf]
  dsimp only
  split
  · rw [jump, ha]
    rfl
  · rfl

theorem run_jcc_none (hf : m.flags = none) (cond : Cond) (l fuel : ℕ) :
    (run env spent code (fuel + 1) (.inst (.jcc cond l) :: rest)).run m = .error env.fault m := by
  rw [run, run_bind_of_ok (EStateM.run_get m), hf]
  rfl

/-- A run that returned returns the same with more fuel. -/
theorem run_more {fuel : ℕ} {m' : Machine σ} (h : (run env spent code fuel rest).run m = .ok () m') (k : ℕ) :
    (run env spent code (fuel + k) rest).run m = .ok () m' := by
  induction fuel generalizing rest m with
  | zero => cases h
  | succ fuel ih =>
    rw [Nat.add_right_comm]
    cases rest with
    | nil => cases h
    | cons item rest =>
      cases item with
      | label l => exact ih h
      | inst i =>
        cases i with
        | ret => exact h
        | jmp l =>
          obtain ⟨next, m₁, hj, hr⟩ := run_bind_eq_ok.mp h
          exact run_bind_eq_ok.mpr ⟨next, m₁, hj, ih hr⟩
        | jcc cond l =>
          cases hf : m.flags with
          | none =>
            rw [run_jcc_none hf] at h
            cases h
          | some f =>
            rw [run, run_bind_of_ok (EStateM.run_get m), hf] at h ⊢
            dsimp only at h ⊢
            split at h
            · next hh =>
              obtain ⟨next, m₁, hj, hr⟩ := run_bind_eq_ok.mp h
              rw [if_pos hh]
              exact run_bind_eq_ok.mpr ⟨next, m₁, hj, ih hr⟩
            · next hh =>
              rw [if_neg hh]
              exact ih h
        | bin | set | mul | push | pop | call =>
          rw [Straight.run_succ rfl] at h ⊢
          obtain ⟨u, m₁, hx, hr⟩ := run_bind_eq_ok.mp h
          exact run_bind_eq_ok.mpr ⟨u, m₁, hx, ih hr⟩

/-- A run that stopped, but not for want of fuel, stops the same with more. -/
theorem run_more_error {fuel : ℕ} {e : ε} {m' : Machine σ}
    (h : (run env spent code fuel rest).run m = .error e m') (k : ℕ) :
    e = spent ∨ (run env spent code (fuel + k) rest).run m = .error e m' := by
  induction fuel generalizing rest m with
  | zero =>
    cases h
    exact .inl rfl
  | succ fuel ih =>
    rw [Nat.add_right_comm]
    cases rest with
    | nil => exact .inr h
    | cons item rest =>
      cases item with
      | label l => exact ih h
      | inst i =>
        cases i with
        | ret => cases h
        | jmp l =>
          rcases run_bind_eq_error.mp h with hj | ⟨next, m₁, hj, hr⟩
          · exact .inr (run_bind_eq_error.mpr (.inl hj))
          · exact (ih hr).imp_right fun hr' ↦ run_bind_eq_error.mpr (.inr ⟨next, m₁, hj, hr'⟩)
        | jcc cond l =>
          cases hf : m.flags with
          | none =>
            rw [run_jcc_none hf] at h ⊢
            exact .inr h
          | some f =>
            rw [run, run_bind_of_ok (EStateM.run_get m), hf] at h ⊢
            dsimp only at h ⊢
            split at h
            · next hh =>
              rw [if_pos hh]
              rcases run_bind_eq_error.mp h with hj | ⟨next, m₁, hj, hr⟩
              · exact .inr (run_bind_eq_error.mpr (.inl hj))
              · exact (ih hr).imp_right fun hr' ↦ run_bind_eq_error.mpr (.inr ⟨next, m₁, hj, hr'⟩)
            · next hh =>
              rw [if_neg hh]
              exact ih h
        | bin | set | mul | push | pop | call =>
          rw [Straight.run_succ rfl] at h ⊢
          rcases run_bind_eq_error.mp h with hx | ⟨u, m₁, hx, hr⟩
          · exact .inr (run_bind_eq_error.mpr (.inl hx))
          · exact (ih hr).imp_right fun hr' ↦ run_bind_eq_error.mpr (.inr ⟨u, m₁, hx, hr'⟩)

namespace Ends

variable {P : Machine σ → Prop}

theorem straight (hc : Straight c)
    (h : ∀ m₁, (block env c).run m = .ok () m₁ → Ends env spent code n rest m₁ P) :
    Ends env spent code n (c ++ rest) m P := by
  intro fuel hle m' hr
  obtain ⟨fuel', m₁, hle', hb, hr'⟩ := hc.of_run hr
  exact h m₁ hb fuel' (hle'.trans hle) m' hr'

theorem ret (h : P m) : Ends env spent code n (.inst .ret :: rest) m P := by
  intro fuel hle m' hr
  cases fuel with
  | zero => cases hr
  | succ fuel =>
    cases hr
    exact h

theorem label {l : ℕ} (h : Ends env spent code n rest m P) :
    Ends env spent code n (.label l :: rest) m P := by
  intro fuel hle m' hr
  cases fuel with
  | zero => cases hr
  | succ fuel => exact h fuel (Nat.le_of_succ_le hle) m' hr

theorem jmp {l : ℕ} (ha : after l code = some rest') (h : Ends env spent code n rest' m P) :
    Ends env spent code n (.inst (.jmp l) :: rest) m P := by
  intro fuel hle m' hr
  cases fuel with
  | zero => cases hr
  | succ fuel =>
    rw [run_jmp ha] at hr
    exact h fuel (Nat.le_of_succ_le hle) m' hr

/-- The jump uses up a step, so that it may go back. -/
theorem jcc {l : ℕ} (ha : after l code = some rest') {cond : Cond}
    (ht : ∀ f, m.flags = some f → cond.holds f = true → ∀ k < n, Ends env spent code k rest' m P)
    (hf : ∀ f, m.flags = some f → cond.holds f = false → Ends env spent code n rest m P) :
    Ends env spent code n (.inst (.jcc cond l) :: rest) m P := by
  intro fuel hle m' hr
  cases fuel with
  | zero => cases hr
  | succ fuel =>
    cases hfl : m.flags with
    | none =>
      rw [run_jcc_none hfl] at hr
      cases hr
    | some f =>
      rw [run_jcc ha hfl] at hr
      cases hh : cond.holds f with
      | true =>
        rw [hh] at hr
        exact ht f hfl hh fuel hle fuel le_rfl m' hr
      | false =>
        rw [hh] at hr
        exact hf f hfl hh fuel (Nat.le_of_succ_le hle) m' hr

end Ends

section

variable {pre x y post : List (Item F)} {cond : Cond} {taken exit : ℕ}

theorem twoWay_append : twoWay cond taken exit x y ++ post =
    .inst (.jcc cond taken) :: (x ++ .inst (.jmp exit) :: .label taken :: (y ++ .label exit :: post)) := by
  simp [twoWay]

theorem after_taken (hpre : .label taken ∉ pre) (hx : Straight x) :
    after taken (pre ++ twoWay cond taken exit x y ++ post) = some (y ++ .label exit :: post) := by
  rw [twoWay, List.append_assoc, after_append hpre]
  simp only [List.cons_append, List.append_assoc, after]
  rw [hx.after, after, after, if_pos rfl]
  rfl

theorem after_exit (hpre : .label exit ∉ pre) (hx : Straight x) (hy : Straight y)
    (hne : taken ≠ exit) :
    after exit (pre ++ twoWay cond taken exit x y ++ post) = some post := by
  rw [twoWay, List.append_assoc, after_append hpre]
  simp only [List.cons_append, List.append_assoc, after]
  rw [hx.after, after, after, if_neg hne, hy.after]
  exact if_pos rfl

variable (hx : Straight x) (hy : Straight y)
  (ht : after taken code = some (y ++ .label exit :: post)) (he : after exit code = some post)

include hx hy ht he

theorem Ends.twoWay {P : Machine σ → Prop}
    (hcx : ∀ f, m.flags = some f → cond.holds f = false → ∀ m₁, (block env x).run m = .ok () m₁ →
      Ends env spent code n post m₁ P)
    (hcy : ∀ f, m.flags = some f → cond.holds f = true → ∀ m₁, (block env y).run m = .ok () m₁ →
      Ends env spent code n post m₁ P) :
    Ends env spent code n (twoWay cond taken exit x y ++ post) m P := by
  rw [twoWay_append]
  refine .jcc ht (fun f hf hh k hk ↦ ?_) fun f hf hh ↦ ?_
  · refine .straight hy fun m₁ hb ↦ .label fun fuel hle ↦ ?_
    exact hcy f hf hh m₁ hb fuel (hle.trans hk.le)
  · exact .straight hx fun m₁ hb ↦ .jmp he (hcx f hf hh m₁ hb)

end

namespace Halts

variable {E : ε → Prop}

theorem mono {n' : ℕ} (h : Halts env spent code E n rest) (hn : n ≤ n') :
    Halts env spent code E n' rest := fun fuel hle ↦ h fuel (hn.trans hle)

theorem straight (hE : env.Fails E) (hc : Straight c) (h : Halts env spent code E n rest) :
    Halts env spent code E (n + c.length) (c ++ rest) := by
  intro fuel hle m e m' hr
  obtain ⟨k, rfl⟩ := Nat.exists_eq_add_of_le hle
  have hfuel : n + c.length + k = n + k + c.length := by omega
  rw [hfuel, hc.run] at hr
  cases hb : (block env c).run m with
  | error e' m₁ =>
    rw [run_bind_of_error hb] at hr
    cases hr
    exact block_fails hE hb
  | ok u m₁ =>
    rw [run_bind_of_ok hb] at hr
    exact h (n + k) (Nat.le_add_right n k) m₁ e m' hr

theorem ret : Halts env spent code E 1 (.inst .ret :: rest) := by
  intro fuel hle m e m' hr
  cases fuel with
  | zero => omega
  | succ fuel => cases hr

theorem label {l : ℕ} (h : Halts env spent code E n rest) :
    Halts env spent code E (n + 1) (.label l :: rest) := by
  intro fuel hle m e m' hr
  cases fuel with
  | zero => omega
  | succ fuel => exact h fuel (Nat.le_of_succ_le_succ hle) m e m' hr

theorem jmp {l : ℕ} (ha : after l code = some rest') (h : Halts env spent code E n rest') :
    Halts env spent code E (n + 1) (.inst (.jmp l) :: rest) := by
  intro fuel hle m e m' hr
  cases fuel with
  | zero => omega
  | succ fuel =>
    rw [run_jmp ha] at hr
    exact h fuel (Nat.le_of_succ_le_succ hle) m e m' hr

theorem jcc (hE : env.Fails E) {l : ℕ} (ha : after l code = some rest') {cond : Cond}
    (ht : Halts env spent code E n rest') (hf : Halts env spent code E n rest) :
    Halts env spent code E (n + 1) (.inst (.jcc cond l) :: rest) := by
  intro fuel hle m e m' hr
  cases fuel with
  | zero => omega
  | succ fuel =>
    cases hfl : m.flags with
    | none =>
      rw [run_jcc_none hfl] at hr
      cases hr
      exact hE.fault
    | some f =>
      rw [run_jcc ha hfl] at hr
      have hle' := Nat.le_of_succ_le_succ hle
      cases hh : cond.holds f with
      | true =>
        rw [hh] at hr
        exact ht fuel hle' m e m' hr
      | false =>
        rw [hh] at hr
        exact hf fuel hle' m e m' hr

theorem twoWay (hE : env.Fails E) {x y post : List (Item F)} {cond : Cond} {taken exit : ℕ}
    (hx : Straight x) (hy : Straight y) (ht : after taken code = some (y ++ .label exit :: post))
    (he : after exit code = some post) (h : Halts env spent code E n post) :
    Halts env spent code E (n + (twoWay cond taken exit x y).length)
      (twoWay cond taken exit x y ++ post) := by
  have hlen : (X86.twoWay cond taken exit x y).length = x.length + y.length + 4 := by
    simp [X86.twoWay]
    omega
  rw [hlen, twoWay_append]
  have htaken : Halts env spent code E (n + 1 + y.length) (y ++ .label exit :: post) :=
    .straight hE hy h.label
  have hother : Halts env spent code E (n + 1 + x.length)
      (x ++ .inst (.jmp exit) :: .label taken :: (y ++ .label exit :: post)) :=
    .straight hE hx (.jmp he h)
  have hjump : Halts env spent code E (n + 1 + x.length + y.length + 1) (.inst (.jcc cond taken) ::
      (x ++ .inst (.jmp exit) :: .label taken :: (y ++ .label exit :: post))) :=
    .jcc hE ht (htaken.mono (by omega)) (hother.mono (by omega))
  exact hjump.mono (by omega)

end Halts

namespace Straight

/-- Straight code with as little fuel as instructions uses it up, if none of them stops it. -/
theorem run_spent (hc : Straight c) {m₁ : Machine σ} (hb : (block env c).run m = .ok () m₁)
    {fuel : ℕ} (hle : fuel ≤ c.length) :
    ∃ m', (X86.run env spent code fuel (c ++ rest)).run m = .error spent m' := by
  induction c generalizing m fuel with
  | nil =>
    cases Nat.le_zero.mp hle
    exact ⟨m, rfl⟩
  | cons item c ih =>
    cases fuel with
    | zero => exact ⟨m, rfl⟩
    | succ fuel =>
      obtain ⟨i, rfl, hi⟩ := hc item List.mem_cons_self
      obtain ⟨u, m₂, hx, hb'⟩ := run_bind_eq_ok.mp hb
      rw [List.cons_append, run_succ hi, run_bind_of_ok hx]
      exact ih (fun item hi ↦ hc item (List.mem_cons_of_mem _ hi)) hb' (Nat.le_of_succ_le_succ hle)

/-- A loop whose condition holds after every pass uses up any fuel. -/
theorem spins (hc : Straight c) {cond : Cond} {l : ℕ}
    (hl : X86.after l code = some (c ++ .inst (.jcc cond l) :: rest)) {I : Machine σ → Prop}
    (hI : ∀ m, I m → ∃ m₁ f, (block env c).run m = .ok () m₁ ∧ I m₁ ∧ m₁.flags = some f ∧
      cond.holds f = true) (fuel : ℕ) (hm : I m) :
    ∃ m', (X86.run env spent code fuel (c ++ .inst (.jcc cond l) :: rest)).run m = .error spent m' := by
  induction fuel using Nat.strong_induction_on generalizing m with
  | _ fuel ih =>
    obtain ⟨m₁, f, hb, hm₁, hf, hh⟩ := hI m hm
    by_cases hle : fuel ≤ c.length
    · exact hc.run_spent hb hle
    · obtain ⟨k, rfl⟩ : ∃ k, fuel = k + 1 + c.length := ⟨fuel - 1 - c.length, by omega⟩
      rw [hc.run, run_bind_of_ok hb, run_jcc hl hf, if_pos hh]
      exact ih k (by omega) hm₁

end Straight

/-- Wherever the code stands, behind labels below `lo`, a run goes through it from `m` to `m'`. -/
def Through (env : Env F σ ε) (lo : ℕ) (c : List (Item F)) (m m' : Machine σ) : Prop :=
  ∀ pre rest, (∀ l, .label l ∈ pre → l < lo) → ∃ n, (c ≠ [] → 0 < n) ∧ ∀ spent fuel,
    (run env spent (pre ++ (c ++ rest)) (fuel + n) (c ++ rest)).run m =
      (run env spent (pre ++ (c ++ rest)) fuel rest).run m'

namespace Through

variable {lo hi : ℕ} {d x y : List (Item F)} {m₁ m' : Machine σ}

theorem of_block (h : (block env c).run m = .ok () m') : Through env lo c m m' :=
  fun _ _ _ ↦ ⟨c.length, List.length_pos_of_ne_nil, fun _ fuel ↦ run_block h fuel⟩

theorem append (h : Through env lo c m m₁) (h' : Through env hi d m₁ m') (hle : lo ≤ hi)
    (hc : ∀ l, .label l ∈ c → l < hi) : Through env lo (c ++ d) m m' := by
  intro pre rest hpre
  have hpre' : ∀ l, .label l ∈ pre ++ c → l < hi := by
    intro l hl
    rcases List.mem_append.mp hl with hl | hl
    · exact (hpre l hl).trans_le hle
    · exact hc l hl
  obtain ⟨n, hpos, hn⟩ := h pre (d ++ rest) hpre
  obtain ⟨n', hpos', hn'⟩ := h' (pre ++ c) rest hpre'
  refine ⟨n' + n, fun hne ↦ ?_, fun spent fuel ↦ ?_⟩
  · by_cases hc : c = []
    · rw [hc, List.nil_append] at hne
      exact Nat.add_pos_left (hpos' hne) n
    · exact Nat.add_pos_right n' (hpos hc)
  have hrun := hn' spent fuel
  rw [List.append_assoc] at hrun
  rw [List.append_assoc, ← Nat.add_assoc, hn spent (fuel + n'), hrun]

theorem twoWay (hx : Straight x) (hy : Straight y) {cond : Cond} {f : Flags} (hf : m.flags = some f)
    (h : (block env (if cond.holds f then y else x)).run m = .ok () m') :
    Through env lo (X86.twoWay cond lo (lo + 1) x y) m m' := by
  intro pre rest hpre
  have hno : ∀ l, lo ≤ l → Item.label (F := F) l ∉ pre := fun l hle hl ↦ by
    have hlt := hpre l hl
    omega
  have htaken : after lo (pre ++ X86.twoWay cond lo (lo + 1) x y ++ rest) =
      some (y ++ .label (lo + 1) :: rest) := after_taken (hno lo le_rfl) hx
  have hexit : after (lo + 1) (pre ++ X86.twoWay cond lo (lo + 1) x y ++ rest) = some rest :=
    after_exit (hno (lo + 1) (Nat.le_succ lo)) hx hy (Nat.ne_of_lt (Nat.lt_succ_self lo))
  rw [List.append_assoc] at htaken hexit
  generalize pre ++ (X86.twoWay cond lo (lo + 1) x y ++ rest) = code at htaken hexit ⊢
  rw [twoWay_append]
  cases hh : cond.holds f with
  | true =>
    rw [hh, if_pos rfl] at h
    refine ⟨1 + y.length + 1, fun _ ↦ Nat.succ_pos _, fun spent fuel ↦ ?_⟩
    rw [← Nat.add_assoc, run_jcc htaken hf, hh, if_pos rfl, ← Nat.add_assoc, run_block h]
    rfl
  | false =>
    rw [hh, if_neg Bool.false_ne_true] at h
    refine ⟨1 + x.length + 1, fun _ ↦ Nat.succ_pos _, fun spent fuel ↦ ?_⟩
    rw [← Nat.add_assoc, run_jcc htaken hf, hh, if_neg Bool.false_ne_true, ← Nat.add_assoc,
      run_block h, run_jmp hexit]

theorem returns (h : Through env lo c m m') : ∃ n, ∀ spent fuel, n < fuel →
    (run env spent (c ++ [.inst .ret]) fuel (c ++ [.inst .ret])).run m = .ok () m' := by
  obtain ⟨n, -, hn⟩ := h [] [.inst .ret] nofun
  refine ⟨n, fun spent fuel hlt ↦ ?_⟩
  obtain ⟨k, rfl⟩ := Nat.exists_eq_add_of_le hlt
  have hfuel : n.succ + k = k + 1 + n := by omega
  rw [hfuel]
  exact hn spent (k + 1)

end Through

end RiscvSim.X86
