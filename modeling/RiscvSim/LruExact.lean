import RiscvSim.LruCache
import RiscvSim.Library.Simulation

namespace RiscvSim.LRUCache

open Results Simulation

variable {κ α : Type}

/-- A call on a cache; `val` is what the constructor makes if it is called. -/
inductive Op (κ α : Type)
  | insert (key : κ) (val : α)
  | clear

def self : Member (LRUCache κ α) κ α where
  get c := c
  set c _ := c
  get_set _ _ := rfl
  set_get _ := rfl
  set_set _ _ _ := rfl

section

variable [DecidableEq κ]

def perform : Op κ α → EStateM Stop (LRUCache κ α) Unit
  | .insert key val => do
    let _ ← insert self key (pure val)
  | .clear => modify LRUCache.clear

def performAll : List (Op κ α) → EStateM Stop (LRUCache κ α) Unit
  | [] => pure ()
  | op :: ops => do
    perform op
    performAll ops

/-- The distinct keys used since the last `clear`, most recent first; a history lists the
calls in that order too. -/
def recency : List (Op κ α) → List κ
  | [] => []
  | .insert key _ :: history => key :: (recency history).filter (· ≠ key)
  | .clear :: _ => []

/-- What the constructor made at the latest miss of a key. -/
def latestMiss (n : ℕ) : List (Op κ α) → κ → Option α
  | [] => fun _ ↦ none
  | .insert key val :: history =>
    if key ∈ (recency history).take n then latestMiss n history
    else Function.update (latestMiss n history) key (some val)
  | .clear :: history => latestMiss n history

theorem take_filter_of_notMem {k : κ} {l : List κ} {n : ℕ} (h : k ∉ l.take n) :
    (l.filter (· ≠ k)).take n = l.take n := by
  induction l generalizing n with
  | nil => rfl
  | cons x xs ih =>
    cases n with
    | zero => rfl
    | succ n =>
      rw [List.take_succ_cons, List.mem_cons, not_or] at h
      rw [List.filter_cons_of_pos (by simpa using Ne.symm h.1), List.take_succ_cons,
        List.take_succ_cons, ih h.2]

theorem take_filter_of_mem {k : κ} {l : List κ} (hl : l.Nodup) {n : ℕ} (h : k ∈ l.take (n + 1)) :
    (l.filter (· ≠ k)).take n = (l.take (n + 1)).filter (· ≠ k) := by
  induction l generalizing n with
  | nil => simp
  | cons x xs ih =>
    obtain ⟨hx, hxs⟩ := List.nodup_cons.mp hl
    rw [List.take_succ_cons]
    by_cases hk : x = k
    · subst hk
      have hout : ∀ ys : List κ, x ∉ ys → ys.filter (· ≠ x) = ys := fun ys hys ↦
        List.filter_eq_self.mpr fun y hy ↦ by simpa using ne_of_mem_of_not_mem hy hys
      rw [List.filter_cons_of_neg (by simp), List.filter_cons_of_neg (by simp), hout xs hx,
        hout _ fun hm ↦ hx (List.mem_of_mem_take hm)]
    · have hk' : k ∈ xs.take n := by
        rw [List.take_succ_cons] at h
        exact (List.mem_cons.mp h).resolve_left (Ne.symm hk)
      rw [List.filter_cons_of_pos (by simpa using hk), List.filter_cons_of_pos (by simpa using hk)]
      cases n with
      | zero => simp at hk'
      | succ n => rw [List.take_succ_cons, ih hxs hk']

theorem recency_nodup (history : List (Op κ α)) : (recency history).Nodup := by
  induction history with
  | nil => exact List.nodup_nil
  | cons op history ih =>
    cases op with
    | clear => exact List.nodup_nil
    | insert key val => exact List.nodup_cons.mpr ⟨by simp, ih.filter _⟩

structure Exact (n : ℕ) (history : List (Op κ α)) (c : LRUCache κ α) : Prop where
  valid : c.Valid
  max : c.max_size_ = n
  size : c.cur_size_ = c.entries_.length
  keys : c.entries_.map (·.first) = (recency history).take n
  values : ∀ e ∈ c.entries_, latestMiss n history e.first = some e.second

theorem new_exact (n : ℕ) : Exact n [] (new n : LRUCache κ α) where
  valid := new_valid n
  max := rfl
  size := rfl
  keys := by simp [new, recency]
  values e he := by cases he

theorem clear_exact {n : ℕ} {history : List (Op κ α)} {c : LRUCache κ α} (h : Exact n history c) :
    Exact n (.clear :: history) c.clear where
  valid := clear_valid c
  max := h.max
  size := rfl
  keys := by simp [LRUCache.clear, recency]
  values e he := by cases he

variable {n : ℕ} {history : List (Op κ α)} {c : LRUCache κ α}

theorem Exact.mem_keys (h : Exact n history c) {key : κ} :
    key ∈ (recency history).take n ↔ ∃ a, c.links_ key = some a := by
  rw [← h.keys, List.mem_map]
  constructor
  · rintro ⟨e, he, rfl⟩
    exact ⟨e.addr, (h.valid.links _ _).mpr ⟨e, he, rfl, rfl⟩⟩
  · rintro ⟨a, ha⟩
    obtain ⟨e, he, hk, -⟩ := (h.valid.links _ _).mp ha
    exact ⟨e, he, hk⟩

/-- What one `insert` does, to the cache and for its caller. -/
structure Inserted (n : ℕ) (history : List (Op κ α)) (key : κ) (val : α) (c : LRUCache κ α)
    (res : ℕ × Bool) (c' : LRUCache κ α) : Prop where
  exact : Exact n (.insert key val :: history) c'
  miss : res.2 = true ↔ key ∉ (recency history).take n
  value : c'.deref res.1 = latestMiss n (.insert key val :: history) key
  evicts : ∀ k ∈ c.entries_.map (·.first), k ∉ c'.entries_.map (·.first) →
    c.entries_.length = n ∧ (c.entries_.map (·.first)).getLast? = some k ∧ res.2 = true

theorem insert_hit_exact (h : Exact n history c) {key : κ} {addr : ℕ}
    (hl : c.links_ key = some addr) (val : α) : ∃ c',
      (insert self key (pure val)).run c = .ok (addr, false) c' ∧
      Inserted n history key val c (addr, false) c' := by
  obtain ⟨e, he, hke, rfl⟩ := (h.valid.links _ _).mp hl
  obtain ⟨c', v, hrun, hv, -, hd, hmem, hmax⟩ := insert_hit self h.valid hl (pure val)
  have hkey : key ∈ (recency history).take n := h.mem_keys.mpr ⟨_, hl⟩
  have hmiss : latestMiss n (.insert key val :: history) = latestMiss n history := if_pos hkey
  obtain ⟨n, rfl⟩ : ∃ m, n = m + 1 := by
    cases n with
    | zero => simp at hkey
    | succ m => exact ⟨m, rfl⟩
  have hentries : c'.entries_ = e :: c.entries_.filter (fun e' ↦ e'.addr ≠ e.addr) ∧
      c'.cur_size_ = c.cur_size_ := by
    rw [insert_of_link self hl] at hrun
    dsimp only [self] at hrun
    rw [spliceFront, find_addr h.valid he] at hrun
    cases hrun
    exact ⟨rfl, rfl⟩
  have hfilter : (c.entries_.filter (fun e' ↦ e'.addr ≠ e.addr)).map (·.first) =
      (c.entries_.map (·.first)).filter (· ≠ key) := by
    rw [List.filter_map]
    congr 1
    refine List.filter_congr fun e' he' ↦ ?_
    have hiff : e'.addr = e.addr ↔ e'.first = key := by
      constructor
      · intro ha
        rw [eq_of_addr h.valid he' he ha, hke]
      · intro hk
        rw [eq_of_first h.valid he' he (hk.trans hke.symm)]
    simp [hiff]
  have hkeys : c'.entries_.map (·.first) = (recency (.insert key val :: history)).take (n + 1) := by
    rw [hentries.1, List.map_cons, hfilter, hke, h.keys, recency, List.take_succ_cons,
      take_filter_of_mem (recency_nodup history) hkey]
  refine ⟨c', hrun, ⟨hv, hmax.trans h.max, ?_, hkeys, ?_⟩, ?_, ?_, ?_⟩
  · have hperm := (List.perm_ext_iff_of_nodup (List.Nodup.of_map _ hv.addrs)
      (List.Nodup.of_map _ h.valid.addrs)).mpr hmem
    rw [hentries.2, h.size, hperm.length_eq]
  · intro e' he'
    rw [hmiss]
    exact h.values e' ((hmem e').mp he')
  · simp [hkey]
  · rw [hmiss, ← hke, h.values e he, deref, hentries.1]
    simp
  · intro k hk hk'
    refine absurd ?_ hk'
    obtain ⟨e', he', rfl⟩ := List.mem_map.mp hk
    exact List.mem_map_of_mem ((hmem e').mpr he')

theorem Exact.not_stuck (h : Exact n history c) (hn : 1 ≤ n) : ¬ c.Stuck := by
  rintro ⟨hnil, hfull⟩
  rw [h.size, hnil, h.max] at hfull
  exact absurd hfull.symm (Nat.one_le_iff_ne_zero.mp hn)

theorem insert_miss_exact (h : Exact n history c) (hn : 1 ≤ n) {key : κ}
    (hl : c.links_ key = none) (val : α) : ∃ addr c',
      (insert self key (pure val)).run c = .ok (addr, true) c' ∧
      Inserted n history key val c (addr, true) c' := by
  obtain ⟨c₁, hroom, hv₁, -, hlen, hsub, hmax⟩ := makeRoom_spec h.valid (h.not_stuck hn)
  have hkey : key ∉ (recency history).take n := by
    rw [h.mem_keys, hl]
    simp
  have hnot : ∀ e ∈ c₁.entries_, e.first ≠ key := fun e he ↦
    (links_eq_none h.valid).mp hl e (hsub e he)
  obtain ⟨m, rfl⟩ : ∃ m, n = m + 1 := ⟨n - 1, by omega⟩
  have hkeys : (recency (.insert key val :: history)).take (m + 1) =
      key :: (recency history).take m := by
    rw [recency, List.take_succ_cons, take_filter_of_notMem]
    exact fun hm ↦ hkey (List.take_subset_take_left _ (Nat.le_succ m) hm)
  have hcount : c.entries_.length = ((recency history).take (m + 1)).length := by
    rw [← h.keys, List.length_map]
  have hbound := h.valid.bound
  rw [h.size, h.max] at hbound
  have hmiss : latestMiss (m + 1) (.insert key val :: history) =
      Function.update (latestMiss (m + 1) history) key (some val) := if_neg hkey
  -- What making room leaves behind: all entries, or all but the last.
  have hshape : c₁.entries_.map (·.first) = (recency history).take m ∧
      c₁.cur_size_ = c₁.entries_.length + 1 ∧
      (c₁.entries_ = c.entries_ ∨ c.entries_.length = m + 1 ∧ c₁.entries_ = c.entries_.dropLast) := by
    unfold makeRoom at hroom
    split at hroom
    · next hlt =>
      cases hroom
      rw [h.size, h.max] at hlt
      refine ⟨?_, by rw [h.size], .inl rfl⟩
      rw [h.keys]
      rw [List.length_take] at hcount
      rw [List.take_of_length_le (i := m + 1) (by omega), List.take_of_length_le (by omega)]
    · next hge =>
      rw [h.size, h.max] at hge
      have hfull : c.entries_.length = m + 1 := by omega
      cases hlast : c.entries_.getLast? with
      | none =>
        rw [List.getLast?_eq_none_iff.mp hlast] at hfull
        cases hfull
      | some back =>
        rw [hlast] at hroom
        cases hroom
        refine ⟨?_, ?_, .inr ⟨hfull, rfl⟩⟩
        · change c.entries_.dropLast.map (·.first) = _
          rw [List.map_dropLast, h.keys]
          rw [List.dropLast_eq_take, ← hcount, hfull, List.take_take, Nat.add_sub_cancel,
            Nat.min_eq_left (Nat.le_succ m)]
        · change c.cur_size_ = c.entries_.dropLast.length + 1
          rw [h.size, List.length_dropLast, hfull]
          rfl
  have hrun : (insert self key (pure val)).run c =
      .ok (c₁.fresh, true) (c₁.emplaceFront key val) := by
    rw [insert_of_no_link self hl]
    dsimp only [self]
    rw [hroom]
    rfl
  have hvalues : ∀ e ∈ (c₁.emplaceFront key val).entries_,
      latestMiss (m + 1) (.insert key val :: history) e.first = some e.second := by
    intro e he
    rw [hmiss]
    rcases List.mem_cons.mp he with rfl | he
    · exact Function.update_self _ _ _
    · rw [Function.update_of_ne (hnot e he)]
      exact h.values e (hsub e he)
  refine ⟨c₁.fresh, _, hrun, ⟨emplaceFront_valid hv₁ hlen hnot val, hmax.trans h.max, ?_, ?_, hvalues⟩,
    ?_, ?_, ?_⟩
  · exact hshape.2.1
  · rw [hkeys, ← hshape.1]
    rfl
  · simp [hkey]
  · rw [deref_emplaceFront, hmiss, Function.update_self]
  · intro k hk hk'
    rcases hshape.2.2 with hsame | ⟨hfull, hdrop⟩
    · refine absurd ?_ hk'
      change k ∈ key :: c₁.entries_.map (·.first)
      rw [hsame]
      exact List.mem_cons_of_mem _ hk
    · have hne : c.entries_.map (·.first) ≠ [] := List.ne_nil_of_mem hk
      refine ⟨hfull, ?_, rfl⟩
      have hk'' : k ∉ (c.entries_.map (·.first)).dropLast := by
        intro hm
        refine hk' (List.mem_cons_of_mem key ?_)
        rw [hdrop, List.map_dropLast]
        exact hm
      rw [← List.dropLast_append_getLast hne, List.mem_append, List.mem_singleton] at hk
      rw [List.getLast?_eq_getLast_of_ne_nil hne, hk.resolve_left hk'']

theorem insert_exact (h : Exact n history c) (hn : 1 ≤ n) (key : κ) (val : α) : ∃ res c',
    (insert self key (pure val)).run c = .ok res c' ∧ Inserted n history key val c res c' := by
  cases hl : c.links_ key with
  | some addr =>
    obtain ⟨c', hrun, hi⟩ := insert_hit_exact h hl val
    exact ⟨_, c', hrun, hi⟩
  | none =>
    obtain ⟨addr, c', hrun, hi⟩ := insert_miss_exact h hn hl val
    exact ⟨_, c', hrun, hi⟩

theorem Exact.perform (h : Exact n history c) (hn : 1 ≤ n) (op : Op κ α) :
    ∃ c', (perform op).run c = .ok () c' ∧ Exact n (op :: history) c' := by
  cases op with
  | clear => exact ⟨_, rfl, clear_exact h⟩
  | insert key val =>
    obtain ⟨res, c', hrun, hi⟩ := insert_exact h hn key val
    exact ⟨c', by rw [LRUCache.perform, run_bind_of_ok hrun]; rfl, hi.exact⟩

theorem performAll_exact (hn : 1 ≤ n) (ops : List (Op κ α)) (h : Exact n history c) :
    ∃ c', (performAll ops).run c = .ok () c' ∧ Exact n (ops.reverse ++ history) c' := by
  induction ops generalizing history c with
  | nil => exact ⟨c, rfl, h⟩
  | cons op ops ih =>
    obtain ⟨c₁, hrun, h₁⟩ := h.perform hn op
    obtain ⟨c₂, hrun₂, h₂⟩ := ih h₁
    refine ⟨c₂, by rw [performAll, run_bind_of_ok hrun, hrun₂], ?_⟩
    rwa [List.reverse_cons, List.append_assoc]

/-- After any calls the cache is the exact LRU map of their history, and so answers the next. -/
theorem exact_lru (hn : 1 ≤ n) (ops : List (Op κ α)) :
    ∃ c, (performAll ops).run (new n) = .ok () c ∧
      (c.entries_.map (·.first)).Nodup ∧ (c.entries_.map (·.addr)).Nodup ∧
      (∀ k a, c.links_ k = some a ↔ ∃ e ∈ c.entries_, e.first = k ∧ e.addr = a) ∧
      c.cur_size_ = c.entries_.length ∧ c.cur_size_ ≤ n ∧
      c.entries_.map (·.first) = (recency ops.reverse).take n ∧
      ∀ key val, ∃ res c', (insert self key (pure val)).run c = .ok res c' ∧
        Inserted n ops.reverse key val c res c' := by
  obtain ⟨c, hrun, h⟩ := performAll_exact hn ops (new_exact n)
  rw [List.append_nil] at h
  refine ⟨c, hrun, h.valid.keys, h.valid.addrs, h.valid.links, h.size, ?_, h.keys, ?_⟩
  · rw [← h.max]
    exact h.valid.bound
  · exact fun key val ↦ insert_exact h hn key val

theorem exact_lru_evicts : ∃ c : LRUCache ℕ ℕ,
    (performAll [.insert 1 10, .insert 2 20, .insert 1 30, .insert 3 40]).run (new 2) = .ok () c ∧
      c.entries_.map (·.first) = [3, 1] ∧
      ∃ res c', (insert self 1 (pure 50)).run c = .ok res c' ∧ c'.deref res.1 = some 10 := by
  obtain ⟨c, hrun, -, -, -, -, -, hkeys, hnext⟩ := exact_lru (show 1 ≤ 2 by decide)
    [Op.insert 1 10, .insert 2 20, .insert 1 30, .insert 3 40]
  obtain ⟨res, c', hrun', hi⟩ := hnext 1 50
  exact ⟨c, hrun, hkeys, res, c', hrun', hi.value⟩

/-- A call of `insert` returns a reference to the value of its key: the one that the cache had for
it, or else the new one. -/
def Answers : Op κ α → LRUCache κ α → Prop
  | .clear, _ => True
  | .insert key val, c => ∃ res c' v, (insert self key (pure val)).run c = .ok res c' ∧
      c'.deref res.1 = some v ∧ c'.Maps key v ∧ (c.Maps key v ∨ (∀ w, ¬ c.Maps key w) ∧ v = val)

theorem Exact.answers (h : Exact n history c) (hn : 1 ≤ n) (op : Op κ α) : Answers op c := by
  cases op with
  | clear => trivial
  | insert key val =>
    cases hl : c.links_ key with
    | some addr =>
      obtain ⟨c', v, hrun, hv, hm, hd, hmem, -⟩ := insert_hit self h.valid hl (pure val)
      obtain ⟨e, he, hr⟩ := id hm
      exact ⟨_, c', v, hrun, hd, ⟨e, (hmem e).mpr he, hr⟩, .inl hm⟩
    | none =>
      obtain ⟨c₁, -, -, -, -, hrun⟩ := insert_miss self h.valid (h.not_stuck hn) hl (pure val)
      exact ⟨_, _, val, hrun, deref_emplaceFront c₁ key val, maps_emplaceFront.mpr (.inl ⟨rfl, rfl⟩),
        .inr ⟨not_maps_of_link h.valid hl, rfl⟩⟩

theorem Exact.along_answers (hn : 1 ≤ n) (ops : List (Op κ α)) (h : Exact n history c) :
    Along (fun op ↦ attempt (LRUCache.perform op)) Answers ops c := by
  induction ops generalizing history c with
  | nil => trivial
  | cons op ops ih =>
    obtain ⟨c', hrun, h'⟩ := h.perform hn op
    rw [along_cons, attempt_of_ok hrun]
    exact ⟨h.answers hn op, ih h'⟩

/-- Without room for one entry no call of `insert` returns. -/
theorem along_answers_new_zero (ops : List (Op κ α)) :
    Along (fun op ↦ attempt (perform op)) Answers ops (new 0) ↔ ∀ op ∈ ops, op = .clear := by
  induction ops with
  | nil => exact iff_of_true trivial nofun
  | cons op ops ih =>
    rw [along_cons, List.forall_mem_cons]
    cases op with
    | clear => exact and_congr (iff_of_true trivial rfl) ih
    | insert key val =>
      refine iff_of_false ?_ fun h ↦ nomatch h.1
      rintro ⟨⟨res, c', v, hrun, -⟩, -⟩
      cases hrun

/-- The cache answers along every history of calls, unless it has no room and is asked for a value. -/
theorem every_size_iff (n : ℕ) (ops : List (Op κ α)) :
    Along (fun op ↦ attempt (perform op)) Answers ops (new n) ↔ n ≠ 0 ∨ ∀ op ∈ ops, op = .clear := by
  cases n with
  | zero => exact (along_answers_new_zero ops).trans ⟨.inr, fun h ↦ h.resolve_left (absurd rfl)⟩
  | succ n => exact iff_of_true (Exact.along_answers (Nat.succ_pos n) ops (new_exact _)) (.inl nofun)

end

end RiscvSim.LRUCache
