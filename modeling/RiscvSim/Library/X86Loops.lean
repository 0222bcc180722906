import RiscvSim.Library.X86Jumps

namespace RiscvSim.X86

open Results

variable {F σ ε α : Type}

/-- `n` passes, each but the last of which ends in a place to start again from. -/
inductive Repeats (pass : α → α → Prop) (again : α → Prop) : ℕ → α → α → Prop
  | once {a b : α} : pass a b → ¬ again b → Repeats pass again 1 a b
  | more {n : ℕ} {a b c : α} : pass a b → again b → Repeats pass again n b c → Repeats pass again (n + 1) a c

theorem Repeats.pos {pass : α → α → Prop} {again : α → Prop} {n : ℕ} {a b : α}
    (h : Repeats pass again n a b) : 1 ≤ n := by
  cases h with
  | once => exact le_rfl
  | more => exact Nat.le_add_left 1 _

variable (env : Env F σ ε) (code : List (Item F))

def Returns (m m' : Machine σ) : Prop :=
  ∃ n, ∀ spent fuel, n < fuel → (run env spent code fuel code).run m = .ok () m'

def Restarts (m m' : Machine σ) : Prop :=
  ∃ n, 0 < n ∧ ∀ spent fuel,
    (run env spent code (fuel + n) code).run m = (run env spent code fuel code).run m'

/-- Behind labels below `lo`, no run of code that begins with `c` returns. -/
def Stuck (lo : ℕ) (c : List (Item F)) (m : Machine σ) : Prop :=
  ∀ pre rest, (∀ l, .label l ∈ pre → l < lo) → ∀ spent fuel m',
    (run env spent (pre ++ (c ++ rest)) fuel (c ++ rest)).run m ≠ .ok () m'

/-- Each run of the code from a machine with `I` is a pass in the world that `view` sees. -/
structure Passes (I : Machine σ → Prop) (view : Machine σ → α) (pass : α → α → Prop)
    (again : α → Prop) : Prop where
  restarts : ∀ m b, I m → pass (view m) b → again b → ∃ m', I m' ∧ view m' = b ∧ Restarts env code m m'
  returns : ∀ m b, I m → pass (view m) b → ¬ again b → ∃ m', view m' = b ∧ Returns env code m m'
  stuck : ∀ m, I m → (∀ b, ¬ pass (view m) b) → Stuck env 0 code m

variable {env code} {lo hi : ℕ} {c d post : List (Item F)} {m m₁ m' : Machine σ}

namespace Stuck

theorem append (h : Stuck env lo c m) (d : List (Item F)) : Stuck env lo (c ++ d) m := by
  intro pre rest hpre spent fuel m'
  rw [List.append_assoc]
  exact h pre (d ++ rest) hpre spent fuel m'

theorem not_returns (h : Stuck env 0 code m) {spent : ε} {fuel : ℕ} :
    (run env spent code fuel code).run m ≠ .ok () m' := by
  have hrun := h [] [] nofun spent fuel m'
  rw [List.append_nil, List.nil_append] at hrun
  exact hrun

end Stuck

namespace Through

theorem stuck (h : Through env lo c m m₁) (h' : Stuck env hi d m₁) (hle : lo ≤ hi)
    (hc : ∀ l, .label l ∈ c → l < hi) : Stuck env lo (c ++ d) m := by
  intro pre rest hpre spent fuel m' hr
  have hpre' : ∀ l, .label l ∈ pre ++ c → l < hi := by
    intro l hl
    rcases List.mem_append.mp hl with hl | hl
    · exact (hpre l hl).trans_le hle
    · exact hc l hl
  obtain ⟨n, -, hn⟩ := h pre (d ++ rest) hpre
  have hmore := run_more hr n
  rw [List.append_assoc, hn, ← List.append_assoc] at hmore
  exact h' (pre ++ c) rest hpre' spent fuel m' hmore

theorem returns_ret (h : Through env 0 c m m') : Returns env (c ++ [.inst .ret]) m m' := by
  obtain ⟨n, hn⟩ := h.returns
  exact ⟨n, hn⟩

section

variable {l : ℕ} {cond : Cond} {f : Flags} (h : Through env 0 (.label l :: c) m m') (hf : m'.flags = some f)

include h hf

theorem restarts (hh : cond.holds f = true) :
    Restarts env (.label l :: c ++ .inst (.jcc cond l) :: post) m m' := by
  obtain ⟨n, hpos, hn⟩ := h [] (.inst (.jcc cond l) :: post) nofun
  refine ⟨n, hpos (List.cons_ne_nil _ _), fun spent fuel ↦ (hn spent fuel).trans ?_⟩
  have hafter : after l (.label l :: c ++ .inst (.jcc cond l) :: post) =
      some (c ++ .inst (.jcc cond l) :: post) := if_pos rfl
  cases fuel with
  | zero => rfl
  | succ fuel =>
    rw [List.nil_append, run_jcc hafter hf, hh, if_pos rfl]
    rfl

theorem returns_behind (hh : cond.holds f = false) {m₁ : Machine σ}
    (hpost : (block env post).run m' = .ok () m₁) :
    Returns env (.label l :: c ++ .inst (.jcc cond l) :: (post ++ [.inst .ret])) m m₁ := by
  obtain ⟨n, -, hn⟩ := h [] (.inst (.jcc cond l) :: (post ++ [.inst .ret])) nofun
  have hafter : after l (.label l :: c ++ .inst (.jcc cond l) :: (post ++ [.inst .ret])) =
      some (c ++ .inst (.jcc cond l) :: (post ++ [.inst .ret])) := if_pos rfl
  refine ⟨post.length + 1 + n, fun spent fuel hlt ↦ ?_⟩
  obtain ⟨k, rfl⟩ := Nat.exists_eq_add_of_lt hlt
  have hfuel : post.length + 1 + n + k + 1 = k + 1 + post.length + 1 + n := by omega
  refine (congrArg (fun fuel ↦ (run env spent _ fuel _).run m) hfuel).trans ((hn spent _).trans ?_)
  rw [List.nil_append, run_jcc hafter hf, hh, if_neg Bool.false_ne_true, run_block hpost]
  rfl

end

end Through

namespace Passes

variable {I : Machine σ → Prop} {view : Machine σ → α} {pass : α → α → Prop} {again : α → Prop}
  (h : Passes env code I view pass again)

include h

/-- A run that returns is a number of passes: the induction is on the fuel, of which each pass
takes some. -/
theorem repeats {spent : ε} {fuel : ℕ} (hm : I m) (hr : (run env spent code fuel code).run m = .ok () m') :
    ∃ n, Repeats pass again n (view m) (view m') := by
  induction fuel using Nat.strong_induction_on generalizing m with
  | _ fuel ih =>
    by_cases hpass : ∃ b, pass (view m) b
    · obtain ⟨b, hb⟩ := hpass
      by_cases hagain : again b
      · obtain ⟨m₁, hm₁, rfl, n, hpos, hn⟩ := h.restarts m b hm hb hagain
        by_cases hle : n ≤ fuel
        · obtain ⟨k, rfl⟩ := Nat.exists_eq_add_of_le' hle
          rw [hn] at hr
          obtain ⟨p, hp⟩ := ih k (Nat.lt_add_of_pos_right hpos) hm₁ hr
          exact ⟨p + 1, .more hb hagain hp⟩
        · have hmore := run_more hr (n - fuel)
          have hfuel : fuel + (n - fuel) = 0 + n := by omega
          rw [hfuel, hn] at hmore
          cases hmore
      · obtain ⟨m₁, rfl, n, hn⟩ := h.returns m b hm hb hagain
        have hmore := run_more hr (n + 1)
        rw [hn spent (fuel + (n + 1)) (by omega)] at hmore
        cases hmore
        exact ⟨1, .once hb hagain⟩
    · exact absurd hr (h.stuck m hm fun b hb ↦ hpass ⟨b, hb⟩).not_returns

omit h in
theorem restrict {J : Machine σ → Prop} (h : Passes env code I view pass again) (hJ : ∀ m, J m → I m)
    (hnext : ∀ m m', J m → I m' → pass (view m) (view m') → again (view m') → J m') :
    Passes env code J view pass again where
  restarts m b hm hb hagain := by
    obtain ⟨m', hm', rfl, hrestarts⟩ := h.restarts m b (hJ m hm) hb hagain
    exact ⟨m', hnext m m' hm hm' hb hagain, rfl, hrestarts⟩
  returns m b hm := h.returns m b (hJ m hm)
  stuck m hm := h.stuck m (hJ m hm)

theorem spent {spent e : ε} {fuel : ℕ} (htotal : ∀ m, I m → ∃ b, pass (view m) b) (hm : I m)
    (hr : (run env spent code fuel code).run m = .error e m') : e = spent := by
  induction fuel using Nat.strong_induction_on generalizing m with
  | _ fuel ih =>
    obtain ⟨b, hb⟩ := htotal m hm
    by_cases hagain : again b
    · obtain ⟨m₁, hm₁, -, n, hpos, hn⟩ := h.restarts m b hm hb hagain
      by_cases hle : n ≤ fuel
      · obtain ⟨k, rfl⟩ := Nat.exists_eq_add_of_le' hle
        rw [hn] at hr
        exact ih k (Nat.lt_add_of_pos_right hpos) hm₁ hr
      · rcases run_more_error hr (n - fuel) with he | hmore
        · exact he
        · have hfuel : fuel + (n - fuel) = 0 + n := by omega
          rw [hfuel, hn] at hmore
          cases hmore
          rfl
    · obtain ⟨m₁, -, n, hn⟩ := h.returns m b hm hb hagain
      rcases run_more_error hr (n + 1) with he | hmore
      · exact he
      · rw [hn spent (fuel + (n + 1)) (by omega)] at hmore
        cases hmore

theorem of_repeats {n : ℕ} {b : α} (hm : I m) (hp : Repeats pass again n (view m) b) :
    ∃ m', view m' = b ∧ Returns env code m m' := by
  generalize hv : view m = a at hp
  induction hp generalizing m with
  | once hb hagain =>
    subst hv
    exact h.returns m _ hm hb hagain
  | more hb hagain _ ih =>
    subst hv
    obtain ⟨m₁, hm₁, hv₁, n, -, hn⟩ := h.restarts m _ hm hb hagain
    obtain ⟨m₂, hv₂, k, hk⟩ := ih hm₁ hv₁
    refine ⟨m₂, hv₂, k + n, fun spent fuel hlt ↦ ?_⟩
    obtain ⟨j, rfl⟩ := Nat.exists_eq_add_of_lt hlt
    have hfuel : k + n + j + 1 = k + j + 1 + n := by omega
    rw [hfuel, hn]
    exact hk spent (k + j + 1) (by omega)

end Passes

end RiscvSim.X86
