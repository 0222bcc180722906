import RiscvSim.LruExact
import RiscvSim.Library.Simulation

namespace RiscvSim.LRUCache

open Results Simulation

variable {κ α : Type}

inductive Call (κ α : Type)
  | insert (key : κ) (make : Except String α)
  | clear

def construct (make : Except String α) : Except Stop α :=
  match make with
  | .ok val => .ok val
  | .error what => .error (.simException what)

structure Sound (n : ℕ) (c : LRUCache κ α) : Prop where
  valid : c.Valid
  max : c.max_size_ = n
  counted : c.cur_size_ = c.entries_.length

theorem Sound.not_stuck {n : ℕ} {c : LRUCache κ α} (h : Sound n c) (hn : 1 ≤ n) : ¬ c.Stuck := by
  rintro ⟨hnil, hfull⟩
  rw [h.counted, hnil, h.max] at hfull
  exact absurd hfull.symm (Nat.one_le_iff_ne_zero.mp hn)

variable [DecidableEq κ]

def call : Call κ α → EStateM Stop (LRUCache κ α) Unit
  | .insert key make => do
    let _ ← insert self key (lift (construct make))
  | .clear => modify LRUCache.clear

/-- The call needs a value, and its constructor throws. -/
def CtorThrows (op : Call κ α) (c : LRUCache κ α) : Prop :=
  ∃ key what, op = .insert key (.error what) ∧ c.links_ key = none

/-- A call that throws leaves contents, order and count alone, no call evicts from an empty
list, and the count is right afterwards. -/
structure Accounts (op : Call κ α) (c : LRUCache κ α) : Prop where
  unchanged : ∀ what c', (call op).run c = .error (.simException what) c' →
    c'.entries_ = c.entries_ ∧ c'.cur_size_ = c.cur_size_
  defined : ∀ c', (call op).run c ≠ .error .undefinedBehaviour c'
  counted : (attempt (call op) c).2.cur_size_ = (attempt (call op) c).2.entries_.length

section

variable {c c₁ : LRUCache κ α} {key : κ}

theorem makeRoom_changes (h : c.makeRoom = .ok c₁) :
    ¬ (c₁.entries_ = c.entries_ ∧ c₁.cur_size_ = c.cur_size_) := by
  rintro ⟨hentries, hcount⟩
  unfold makeRoom at h
  split at h
  · cases h
    exact absurd hcount (Nat.succ_ne_self _)
  · cases hlast : c.entries_.getLast? with
    | none =>
      rw [hlast] at h
      cases h
    | some back =>
      rw [hlast] at h
      cases h
      have hlen := congrArg List.length hentries
      change c.entries_.dropLast.length = _ at hlen
      rw [List.length_dropLast] at hlen
      have hnil : c.entries_ = [] := List.length_eq_zero_iff.mp (by omega)
      rw [hnil] at hlast
      cases hlast

theorem makeRoom_counted (hc : c.cur_size_ = c.entries_.length) (h : c.makeRoom = .ok c₁) :
    c₁.cur_size_ = c₁.entries_.length + 1 := by
  unfold makeRoom at h
  split at h
  · cases h
    exact congrArg Nat.succ hc
  · cases hlast : c.entries_.getLast? with
    | none =>
      rw [hlast] at h
      cases h
    | some back =>
      rw [hlast] at h
      cases h
      have hne : c.entries_ ≠ [] := by
        intro hnil
        rw [hnil] at hlast
        cases hlast
      have hpos := List.length_pos_of_ne_nil hne
      change c.cur_size_ = c.entries_.dropLast.length + 1
      rw [List.length_dropLast]
      omega

theorem call_miss (hl : c.links_ key = none) (hroom : c.makeRoom = .ok c₁) (make : Except String α) :
    (call (.insert key make)).run c = match make with
      | .ok val => .ok () (c₁.emplaceFront key val)
      | .error what => .error (.simException what) c₁ := by
  have hrun := insert_of_no_link self hl (lift (construct make))
  dsimp only [self] at hrun
  rw [hroom] at hrun
  cases make with
  | ok val => exact run_bind_of_ok hrun
  | error what => exact run_bind_of_error hrun

theorem call_hit (h : c.Valid) {addr : ℕ} (hl : c.links_ key = some addr) (make : Except String α) :
    ∃ c', (call (.insert key make)).run c = .ok () c' ∧ c'.Valid ∧
      c'.cur_size_ = c.cur_size_ ∧ c'.entries_.length = c.entries_.length ∧
      c'.max_size_ = c.max_size_ := by
  obtain ⟨c', v, hc, hv, -, -, hmem, hcount, hmax, -⟩ := spliceFront_spec h hl
  have hperm := (List.perm_ext_iff_of_nodup (List.Nodup.of_map _ hv.addrs)
    (List.Nodup.of_map _ h.addrs)).mpr hmem
  refine ⟨c', ?_, hv, hcount, hperm.length_eq, hmax⟩
  have hrun := insert_of_link self hl (lift (construct make))
  dsimp only [self] at hrun
  rw [hc] at hrun
  exact run_bind_of_ok hrun

end

theorem CtorThrows.changes {op : Call κ α} {c c' : LRUCache κ α} {what : String}
    (ht : CtorThrows op c) (h : (call op).run c = .error (.simException what) c') :
    ¬ (c'.entries_ = c.entries_ ∧ c'.cur_size_ = c.cur_size_) := by
  obtain ⟨key, what', rfl, hl⟩ := ht
  cases hroom : c.makeRoom with
  | ok c₁ =>
    rw [call_miss hl hroom] at h
    cases h
    exact makeRoom_changes hroom
  | error e =>
    have he := makeRoom_error hroom
    have hrun := insert_of_no_link self hl (lift (construct (.error what') : Except Stop α))
    dsimp only [self] at hrun
    rw [hroom, he] at hrun
    have hcall : (call (.insert key (.error what'))).run c = .error .undefinedBehaviour c :=
      run_bind_of_error hrun
    rw [hcall] at h
    cases h

theorem call_sound {n : ℕ} (hn : 1 ≤ n) {op : Call κ α} {c : LRUCache κ α} (h : Sound n c)
    (ht : ¬ CtorThrows op c) : ∃ c', (call op).run c = .ok () c' ∧ Sound n c' := by
  cases op with
  | clear => exact ⟨c.clear, rfl, clear_valid c, h.max, rfl⟩
  | insert key make =>
    cases hl : c.links_ key with
    | some addr =>
      obtain ⟨c', hrun, hv, hcount, hlen, hmax⟩ := call_hit h.valid hl make
      refine ⟨c', hrun, hv, hmax.trans h.max, ?_⟩
      rw [hcount, hlen, h.counted]
    | none =>
      obtain ⟨c₁, hroom, hv, -, hlen, hsub, hmax⟩ := makeRoom_spec h.valid (h.not_stuck hn)
      cases make with
      | error what => exact absurd ⟨key, what, rfl, hl⟩ ht
      | ok val =>
        refine ⟨c₁.emplaceFront key val, call_miss hl hroom _, ?_, hmax.trans h.max, ?_⟩
        · exact emplaceFront_valid hv hlen
            (fun e he ↦ (links_eq_none h.valid).mp hl e (hsub e he)) val
        · exact makeRoom_counted h.counted hroom

theorem accounts_iff {n : ℕ} (hn : 1 ≤ n) {op : Call κ α} {c : LRUCache κ α} (h : Sound n c) :
    (Accounts op c ↔ ¬ CtorThrows op c) ∧ (¬ CtorThrows op c → Sound n (attempt (call op) c).2) := by
  by_cases ht : CtorThrows op c
  · refine ⟨iff_of_false ?_ (not_not.mpr ht), fun hn ↦ absurd ht hn⟩
    intro hk
    obtain ⟨key, what, rfl, hl⟩ := id ht
    obtain ⟨c₁, hroom, -⟩ := makeRoom_spec h.valid (h.not_stuck hn)
    have hrun := call_miss hl hroom (.error what)
    exact ht.changes hrun (hk.unchanged what c₁ hrun)
  · obtain ⟨c', hrun, hs⟩ := call_sound hn h ht
    have hstep := attempt_of_ok hrun
    rw [hstep]
    refine ⟨iff_of_true ⟨?_, ?_, ?_⟩ ht, fun _ ↦ hs⟩
    · intro what d hd
      rw [hrun] at hd
      cases hd
    · intro d hd
      rw [hrun] at hd
      cases hd
    · rw [hstep]
      exact hs.counted

theorem along_accounts_iff {n : ℕ} (hn : 1 ≤ n) (history : List (Call κ α)) {c : LRUCache κ α}
    (h : Sound n c) : Along (fun op ↦ attempt (call op)) Accounts history c ↔
      Along (fun op ↦ attempt (call op)) (fun op c ↦ ¬ CtorThrows op c) history c := by
  induction history generalizing c with
  | nil => exact Iff.rfl
  | cons op history ih =>
    obtain ⟨hk, hs⟩ := accounts_iff hn h
    rw [along_cons, along_cons, hk]
    apply and_congr_right
    intro ht
    exact ih (hs ht)

/-- Along every history of calls the cache keeps its promise exactly while no constructor
throws, and a constructor that throws never leaves the cache as it was. -/
theorem throwing_insert_iff {n : ℕ} (hn : 1 ≤ n) (history : List (Call κ α)) :
    (Along (fun op ↦ attempt (call op)) Accounts history (new n) ↔
      Along (fun op ↦ attempt (call op)) (fun op c ↦ ¬ CtorThrows op c) history (new n)) ∧
    ∀ op what c', let c := (Simulation.run (fun op ↦ attempt (call op)) history (new n)).2
      CtorThrows op c → (call op).run c = .error (.simException what) c' →
        ¬ (c'.entries_ = c.entries_ ∧ c'.cur_size_ = c.cur_size_) := by
  constructor
  · exact along_accounts_iff hn history ⟨new_valid n, rfl, rfl⟩
  · intro op what c' c ht hrun
    exact ht.changes hrun

/-- The second call hits, and its constructor does not run; a third for another key throws. -/
theorem throwing_insert_iff_hit :
    Along (fun op ↦ attempt (call op)) Accounts
        [.insert 1 (.ok 10), .insert 1 (.error "page fault")] (new 2 : LRUCache ℕ ℕ) ∧
      ¬ Along (fun op ↦ attempt (call op)) Accounts
        [.insert 1 (.ok 10), .insert 1 (.error "page fault"), .insert 2 (.error "page fault")]
        (new 2 : LRUCache ℕ ℕ) := by
  refine ⟨(throwing_insert_iff (by decide) _).1.mpr ⟨?_, ?_, trivial⟩, fun h ↦ ?_⟩
  · rintro ⟨key, what, hop, -⟩
    cases hop
  · rintro ⟨key, what, hop, hlink⟩
    cases hop
    cases hlink
  · obtain ⟨-, -, hthrows, -⟩ := (throwing_insert_iff (by decide) _).1.mp h
    exact hthrows ⟨2, "page fault", rfl, rfl⟩

/-- A fault at the first of two places leaves a count of one and no entry. -/
theorem fault_miscounts : ¬ ∀ n, 1 ≤ n → ∀ history : List (Call ℕ ℕ),
    Along (fun op ↦ attempt (call op)) Accounts history (new n) := by
  intro h
  have hk := (h 2 (by decide) [.insert 1 (.error "page fault")]).1
  exact absurd hk.counted (by decide)

end RiscvSim.LRUCache
