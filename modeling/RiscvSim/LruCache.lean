import RiscvSim.IsaDesc
import RiscvSim.Library.Results
import Mathlib.Data.List.Nodup
import Mathlib.Logic.Function.Basic

namespace RiscvSim

open Results

/-- An element of `entries_`, with the address that `splice` leaves it at. -/
structure Node (κ α : Type) where
  addr : ℕ
  first : κ
  second : α

structure LRUCache (κ α : Type) where
  entries_ : List (Node κ α)
  links_ : κ → Option ℕ
  max_size_ : ℕ
  cur_size_ : ℕ
  /-- Where the next element is allocated. -/
  fresh : ℕ

namespace LRUCache

variable {κ α σ : Type}

def new (size : ℕ) : LRUCache κ α where
  entries_ := []
  links_ _ := none
  max_size_ := size
  cur_size_ := 0
  fresh := 0

def deref (c : LRUCache κ α) (addr : ℕ) : Option α :=
  (c.entries_.find? fun e ↦ e.addr = addr).map (·.second)

def modifyAt (c : LRUCache κ α) (addr : ℕ) (f : α → α) : LRUCache κ α :=
  { c with entries_ := c.entries_.map fun e ↦
      if e.addr = addr then { e with second := f e.second } else e }

section

variable [DecidableEq κ]

/-- The first half of a miss: `++cur_size_`, or the eviction of the last element. -/
def makeRoom (c : LRUCache κ α) : Except Stop (LRUCache κ α) :=
  if c.cur_size_ < c.max_size_ then
    .ok { c with cur_size_ := c.cur_size_ + 1 }
  else
    match c.entries_.getLast? with
    | none => .error .undefinedBehaviour
    | some back => .ok { c with
        links_ := Function.update c.links_ back.first none
        entries_ := c.entries_.dropLast }

/-- The second half of a miss, once the value is constructed. -/
def emplaceFront (c : LRUCache κ α) (key : κ) (val : α) : LRUCache κ α :=
  { c with
    entries_ := ⟨c.fresh, key, val⟩ :: c.entries_
    links_ := Function.update c.links_ key (some c.fresh)
    fresh := c.fresh + 1 }

/-- A hit: the element moves to the front. -/
def spliceFront (c : LRUCache κ α) (key : κ) (addr : ℕ) : Except Stop (LRUCache κ α) :=
  match c.entries_.find? fun e ↦ e.addr = addr with
  | none => .error .undefinedBehaviour
  | some e => .ok { c with
      entries_ := e :: c.entries_.filter fun e ↦ e.addr ≠ addr
      links_ := Function.update c.links_ key (some addr) }

end

def clear (c : LRUCache κ α) : LRUCache κ α :=
  { c with entries_ := [], links_ := fun _ ↦ none, cur_size_ := 0 }

/-- A cache that is a member of a larger state. -/
structure Member (σ κ α : Type) where
  get : σ → LRUCache κ α
  set : LRUCache κ α → σ → σ
  get_set : ∀ c s, get (set c s) = c
  set_get : ∀ s, set (get s) s = s
  set_set : ∀ c c' s, set c (set c' s) = set c s

/-- `insert`: a reference to the element, and whether it is new. The value is constructed
in between, in a state whose cache has already made room. -/
def insert [DecidableEq κ] (cache : Member σ κ α) (key : κ) (make : EStateM Stop σ α) :
    EStateM Stop σ (ℕ × Bool) := do
  let c := cache.get (← get)
  match c.links_ key with
  | none =>
    let c ← lift c.makeRoom
    modify (cache.set c)
    let val ← make
    let c := cache.get (← get)
    modify (cache.set (c.emplaceFront key val))
    return (c.fresh, true)
  | some addr =>
    let c ← lift (c.spliceFront key addr)
    modify (cache.set c)
    return (addr, false)

/-- The keys are distinct and `links_` finds each of them; a constructor that threw may
have left `cur_size_` too large, never too small. -/
structure Valid (c : LRUCache κ α) : Prop where
  keys : (c.entries_.map (·.first)).Nodup
  addrs : (c.entries_.map (·.addr)).Nodup
  fresh : ∀ e ∈ c.entries_, e.addr < c.fresh
  links : ∀ k a, c.links_ k = some a ↔ ∃ e ∈ c.entries_, e.first = k ∧ e.addr = a
  size : c.entries_.length ≤ c.cur_size_
  bound : c.cur_size_ ≤ c.max_size_

def Maps (c : LRUCache κ α) (k : κ) (v : α) : Prop := ∃ e ∈ c.entries_, e.first = k ∧ e.second = v

/-- A miss would evict from an empty list. -/
def Stuck (c : LRUCache κ α) : Prop := c.entries_ = [] ∧ c.cur_size_ = c.max_size_

theorem new_valid (size : ℕ) : (new size : LRUCache κ α).Valid where
  keys := List.nodup_nil
  addrs := List.nodup_nil
  fresh _ h := by cases h
  links k a := by simp [new]
  size := le_rfl
  bound := Nat.zero_le _

theorem clear_valid (c : LRUCache κ α) : c.clear.Valid where
  keys := List.nodup_nil
  addrs := List.nodup_nil
  fresh _ h := by cases h
  links k a := by simp [LRUCache.clear]
  size := le_rfl
  bound := Nat.zero_le _

theorem not_maps_clear (c : LRUCache κ α) (k : κ) (v : α) : ¬ c.clear.Maps k v := by
  rintro ⟨e, he, -⟩
  cases he

theorem eq_of_addr {c : LRUCache κ α} (h : c.Valid) {e e' : Node κ α} (he : e ∈ c.entries_)
    (he' : e' ∈ c.entries_) (ha : e.addr = e'.addr) : e = e' :=
  List.inj_on_of_nodup_map h.addrs he he' ha

theorem eq_of_first {c : LRUCache κ α} (h : c.Valid) {e e' : Node κ α} (he : e ∈ c.entries_)
    (he' : e' ∈ c.entries_) (hk : e.first = e'.first) : e = e' :=
  List.inj_on_of_nodup_map h.keys he he' hk

theorem Maps.unique {c : LRUCache κ α} (h : c.Valid) {k : κ} {v v' : α} (hv : c.Maps k v)
    (hv' : c.Maps k v') : v = v' := by
  obtain ⟨e, he, hk, rfl⟩ := hv
  obtain ⟨e', he', hk', rfl⟩ := hv'
  rw [eq_of_first h he he' (hk.trans hk'.symm)]

theorem links_eq_none {c : LRUCache κ α} (h : c.Valid) {k : κ} :
    c.links_ k = none ↔ ∀ e ∈ c.entries_, e.first ≠ k := by
  constructor
  · intro hk e he hek
    have hl := (h.links k e.addr).mpr ⟨e, he, hek, rfl⟩
    rw [hk] at hl
    cases hl
  · intro hk
    cases hl : c.links_ k with
    | none => rfl
    | some a =>
      obtain ⟨e, he, hek, -⟩ := (h.links k a).mp hl
      exact absurd hek (hk e he)

theorem not_maps_of_link {c : LRUCache κ α} (h : c.Valid) {key : κ} (hl : c.links_ key = none)
    (v : α) : ¬ c.Maps key v := by
  rintro ⟨e, he, hk, -⟩
  exact (links_eq_none h).mp hl e he hk

theorem find_addr {c : LRUCache κ α} (h : c.Valid) {e : Node κ α} (he : e ∈ c.entries_) :
    (c.entries_.find? fun e' ↦ e'.addr = e.addr) = some e := by
  cases hf : c.entries_.find? fun e' ↦ e'.addr = e.addr with
  | none => simpa using List.find?_eq_none.mp hf e he
  | some e' =>
    have ha : e'.addr = e.addr := by simpa using List.find?_some hf
    rw [eq_of_addr h (List.mem_of_find?_eq_some hf) he ha]

section

variable [DecidableEq κ]

/-- Making room keeps the cache valid, drops at most the last element, and fails only on
a full cache without elements. -/
theorem makeRoom_spec {c : LRUCache κ α} (h : c.Valid) (hs : ¬ c.Stuck) :
    ∃ c', c.makeRoom = .ok c' ∧ c'.Valid ∧ c'.fresh = c.fresh ∧
      c'.entries_.length < c'.cur_size_ ∧ (∀ e ∈ c'.entries_, e ∈ c.entries_) ∧
      c'.max_size_ = c.max_size_ := by
  unfold makeRoom
  split
  · next hlt =>
    refine ⟨_, rfl, ⟨h.keys, h.addrs, h.fresh, h.links, ?_, ?_⟩, rfl, ?_, fun e he ↦ he, rfl⟩
    · exact h.size.trans (Nat.le_succ _)
    · exact hlt
    · exact Nat.lt_succ_of_le h.size
  · next hge =>
    rcases List.eq_nil_or_concat c.entries_ with hnil | ⟨front, back, hc⟩
    · exact absurd ⟨hnil, le_antisymm h.bound (not_lt.mp hge)⟩ hs
    · have hc' : c.entries_ = front ++ [back] := by simpa using hc
      have hkeys := h.keys
      have haddrs := h.addrs
      rw [hc', List.map_append, List.nodup_append] at hkeys haddrs
      have hlen := h.size
      rw [hc', List.length_append, List.length_singleton] at hlen
      simp only [hc', List.getLast?_append, List.getLast?_singleton, Option.some_or,
        List.dropLast_concat]
      refine ⟨_, rfl, ⟨hkeys.1, haddrs.1, ?_, ?_, ?_, h.bound⟩, rfl, ?_, ?_, rfl⟩
      · exact fun e he ↦ h.fresh e (hc' ▸ List.mem_append_left _ he)
      · intro k a
        by_cases hk : k = back.first
        · subst hk
          simp only [Function.update_self, reduceCtorEq, false_iff]
          rintro ⟨e, he, hke, -⟩
          exact hkeys.2.2 _ (List.mem_map_of_mem he) _ (List.mem_map_of_mem (List.mem_singleton_self _)) hke
        · dsimp only
          rw [Function.update_of_ne hk, h.links k a, hc']
          constructor
          · rintro ⟨e, he, hke, ha⟩
            rcases List.mem_append.mp he with he | he
            · exact ⟨e, he, hke, ha⟩
            · rw [List.mem_singleton.mp he] at hke
              exact absurd hke.symm hk
          · rintro ⟨e, he, hr⟩
            exact ⟨e, List.mem_append_left _ he, hr⟩
      · exact (Nat.le_succ _).trans hlen
      · exact hlen
      · exact fun e he ↦ List.mem_append_left _ he

theorem emplaceFront_valid {c : LRUCache κ α} (h : c.Valid) (hlen : c.entries_.length < c.cur_size_)
    {k : κ} (hk : ∀ e ∈ c.entries_, e.first ≠ k) (v : α) : (c.emplaceFront k v).Valid where
  keys := by
    refine List.nodup_cons.mpr ⟨?_, h.keys⟩
    rintro hm
    obtain ⟨e, he, hke⟩ := List.mem_map.mp hm
    exact hk e he hke
  addrs := by
    refine List.nodup_cons.mpr ⟨?_, h.addrs⟩
    rintro hm
    obtain ⟨e, he, ha⟩ := List.mem_map.mp hm
    exact absurd (h.fresh e he) (by rw [ha]; exact lt_irrefl _)
  fresh e he := by
    rcases List.mem_cons.mp he with rfl | he
    · exact Nat.lt_succ_self _
    · exact (h.fresh e he).trans (Nat.lt_succ_self _)
  links k' a := by
    simp only [emplaceFront, List.mem_cons, exists_eq_or_imp]
    by_cases hk' : k' = k
    · subst hk'
      rw [Function.update_self]
      constructor
      · intro ha
        exact Or.inl ⟨rfl, Option.some.inj ha⟩
      · rintro (⟨-, ha⟩ | ⟨e, he, hke, -⟩)
        · exact congrArg some ha
        · exact absurd hke (hk e he)
    · rw [Function.update_of_ne hk', h.links k' a]
      exact ⟨Or.inr, fun hr ↦ hr.resolve_left fun hl ↦ hk' hl.1.symm⟩
  size := hlen
  bound := h.bound

theorem maps_emplaceFront {c : LRUCache κ α} {k k' : κ} {v v' : α} :
    (c.emplaceFront k v).Maps k' v' ↔ (k' = k ∧ v' = v) ∨ c.Maps k' v' := by
  simp only [Maps, emplaceFront, List.mem_cons, exists_eq_or_imp, eq_comm]

theorem deref_emplaceFront (c : LRUCache κ α) (k : κ) (v : α) :
    (c.emplaceFront k v).deref c.fresh = some v := by
  simp [deref, emplaceFront]

/-- A hit moves the element to the front and leaves the mapping alone. -/
theorem spliceFront_spec {c : LRUCache κ α} (h : c.Valid) {k : κ} {a : ℕ}
    (hk : c.links_ k = some a) : ∃ c' v, c.spliceFront k a = .ok c' ∧ c'.Valid ∧ c.Maps k v ∧
      c'.deref a = some v ∧ (∀ e, e ∈ c'.entries_ ↔ e ∈ c.entries_) ∧
      c'.cur_size_ = c.cur_size_ ∧ c'.max_size_ = c.max_size_ ∧ c'.fresh = c.fresh := by
  obtain ⟨e, he, hke, rfl⟩ := (h.links k a).mp hk
  have hmem : ∀ e', e' ∈ e :: (c.entries_.filter fun e' ↦ e'.addr ≠ e.addr) ↔ e' ∈ c.entries_ := by
    intro e'
    simp only [List.mem_cons, List.mem_filter, ne_eq, decide_not, Bool.not_eq_eq_eq_not,
      Bool.not_true, decide_eq_false_iff_not]
    constructor
    · rintro (rfl | ⟨he', -⟩)
      · exact he
      · exact he'
    · intro he'
      by_cases ha : e'.addr = e.addr
      · exact Or.inl (eq_of_addr h he' he ha)
      · exact Or.inr ⟨he', ha⟩
  have hperm : (e :: c.entries_.filter fun e' ↦ e'.addr ≠ e.addr).Perm c.entries_ := by
    refine (List.perm_ext_iff_of_nodup ?_ (List.Nodup.of_map _ h.addrs)).mpr hmem
    refine List.nodup_cons.mpr ⟨by simp, (List.Nodup.of_map _ h.addrs).filter _⟩
  refine ⟨{ c with
      entries_ := e :: c.entries_.filter fun e' ↦ e'.addr ≠ e.addr
      links_ := Function.update c.links_ k (some e.addr) }, e.second, ?_, ⟨?_, ?_, ?_, ?_, ?_, h.bound⟩,
    ⟨e, he, hke, rfl⟩, ?_, hmem, rfl, rfl, rfl⟩
  · rw [spliceFront, find_addr h he]
  · exact (hperm.map _).nodup_iff.mpr h.keys
  · exact (hperm.map _).nodup_iff.mpr h.addrs
  · exact fun e' he' ↦ h.fresh e' ((hmem e').mp he')
  · intro k' a'
    by_cases hk' : k' = k
    · subst hk'
      dsimp only
      rw [Function.update_self, ← hk, h.links]
      simp only [hmem]
    · dsimp only
      rw [Function.update_of_ne hk', h.links]
      simp only [hmem]
  · exact hperm.length_eq.trans_le h.size
  · simp [deref]

theorem insert_of_link (cache : Member σ κ α) {s : σ} {key : κ} {addr : ℕ}
    (hl : (cache.get s).links_ key = some addr) (make : EStateM Stop σ α) :
    (insert cache key make).run s = match (cache.get s).spliceFront key addr with
      | .ok c => .ok (addr, false) (cache.set c s)
      | .error e => .error e s := by
  rw [insert, run_bind_of_ok (EStateM.run_get s)]
  dsimp only
  rw [hl]
  dsimp only
  cases (cache.get s).spliceFront key addr with
  | error e => rfl
  | ok c => rfl

theorem insert_of_no_link (cache : Member σ κ α) {s : σ} {key : κ}
    (hl : (cache.get s).links_ key = none) (make : EStateM Stop σ α) :
    (insert cache key make).run s = match (cache.get s).makeRoom with
      | .error e => .error e s
      | .ok c => match make.run (cache.set c s) with
        | .ok val s' => .ok ((cache.get s').fresh, true)
            (cache.set ((cache.get s').emplaceFront key val) s')
        | .error e s' => .error e s' := by
  rw [insert, run_bind_of_ok (EStateM.run_get s)]
  dsimp only
  rw [hl]
  dsimp only
  cases (cache.get s).makeRoom with
  | error e => rfl
  | ok c =>
    dsimp only
    rw [run_bind_of_ok (run_lift_ok c s), run_bind_of_ok (EStateM.run_modify _ _)]
    cases hm : make.run (cache.set c s) with
    | error e s' => rw [run_bind_of_error hm]
    | ok val s' =>
      rw [run_bind_of_ok hm]
      rfl

theorem insert_hit (cache : Member σ κ α) {s : σ} (h : (cache.get s).Valid) {key : κ} {addr : ℕ}
    (hl : (cache.get s).links_ key = some addr) (make : EStateM Stop σ α) :
    ∃ c v, (insert cache key make).run s = .ok (addr, false) (cache.set c s) ∧ c.Valid ∧
      (cache.get s).Maps key v ∧ c.deref addr = some v ∧
      (∀ e, e ∈ c.entries_ ↔ e ∈ (cache.get s).entries_) ∧ c.max_size_ = (cache.get s).max_size_ := by
  obtain ⟨c, v, hc, hv, hm, hd, he, -, hmax, -⟩ := spliceFront_spec h hl
  refine ⟨c, v, ?_, hv, hm, hd, he, hmax⟩
  rw [insert_of_link cache hl, hc]

theorem insert_miss (cache : Member σ κ α) {s : σ} (h : (cache.get s).Valid)
    (hs : ¬ (cache.get s).Stuck) {key : κ} (hl : (cache.get s).links_ key = none)
    (make : EStateM Stop σ α) : ∃ c, c.Valid ∧ c.entries_.length < c.cur_size_ ∧
      (∀ e ∈ c.entries_, e ∈ (cache.get s).entries_) ∧ c.max_size_ = (cache.get s).max_size_ ∧
      (insert cache key make).run s = match make.run (cache.set c s) with
        | .ok v s' => .ok ((cache.get s').fresh, true)
            (cache.set ((cache.get s').emplaceFront key v) s')
        | .error e s' => .error e s' := by
  obtain ⟨c, hc, hv, -, hlen, he, hmax⟩ := makeRoom_spec h hs
  refine ⟨c, hv, hlen, he, hmax, ?_⟩
  rw [insert_of_no_link cache hl, hc]

theorem makeRoom_error {c : LRUCache κ α} {e : Stop} (h : c.makeRoom = .error e) :
    e = .undefinedBehaviour := by
  unfold makeRoom at h
  split at h
  · cases h
  · split at h
    · exact (Except.error.inj h).symm
    · cases h

/-- What a call of `insert` that returned has done: the reference is to a value that was mapped
or has just been made, and nothing else is new. -/
theorem insert_ok (cache : Member σ κ α) {s s' : σ} (h : (cache.get s).Valid) {key : κ}
    {make : EStateM Stop σ α}
    (hmake : ∀ t v t', make.run t = .ok v t' → cache.get t' = cache.get t) {res : ℕ × Bool}
    (hrun : (insert cache key make).run s = .ok res s') :
    ∃ v, (cache.get s').Valid ∧ (cache.get s').deref res.1 = some v ∧
      (∀ k' v', (cache.get s').Maps k' v' → (k' = key ∧ v' = v) ∨ (cache.get s).Maps k' v') ∧
      (((cache.get s).Maps key v ∧ ∃ c, s' = cache.set c s) ∨
        (∀ w, ¬ (cache.get s).Maps key w) ∧
          ∃ c c' t, make.run (cache.set c s) = .ok v t ∧ s' = cache.set c' t) := by
  cases hl : (cache.get s).links_ key with
  | some addr =>
    obtain ⟨c, v, hhit, hv, hm, hd, he, -⟩ := insert_hit cache h hl make
    rw [hhit] at hrun
    cases hrun
    rw [cache.get_set]
    refine ⟨v, hv, hd, ?_, .inl ⟨hm, c, rfl⟩⟩
    rintro k' v' ⟨e, hec, hr⟩
    exact .inr ⟨e, (he e).mp hec, hr⟩
  | none =>
    by_cases hs : (cache.get s).Stuck
    · have hroom : ∃ e, (cache.get s).makeRoom = .error e := by
        rw [makeRoom, if_neg (by rw [hs.2]; exact lt_irrefl _), hs.1]
        exact ⟨_, rfl⟩
      obtain ⟨e, he⟩ := hroom
      rw [insert_of_no_link cache hl, he] at hrun
      cases hrun
    · obtain ⟨c, hc, hlen, hsub, -, hmiss⟩ := insert_miss cache h hs hl make
      cases hm : make.run (cache.set c s) with
      | error e t =>
        rw [hmiss, hm] at hrun
        cases hrun
      | ok v t =>
        rw [hmiss, hm] at hrun
        cases hrun
        have ht := hmake _ _ _ hm
        rw [cache.get_set] at ht
        rw [cache.get_set, ht]
        refine ⟨v, emplaceFront_valid hc hlen (fun e he ↦ ?_) v, deref_emplaceFront _ _ _, ?_,
          .inr ⟨not_maps_of_link h hl, c, _, t, hm, rfl⟩⟩
        · exact (links_eq_none h).mp hl e (hsub e he)
        · intro k' v' hkv
          rcases maps_emplaceFront.mp hkv with hnew | ⟨e, he, hr⟩
          · exact .inl hnew
          · exact .inr ⟨e, hsub e he, hr⟩

theorem insert_error (cache : Member σ κ α) {s s' : σ} (h : (cache.get s).Valid) {key : κ}
    {make : EStateM Stop σ α} {e : Stop} (hrun : (insert cache key make).run s = .error e s') :
    e = .undefinedBehaviour ∨ ∃ c, make.run (cache.set c s) = .error e s' := by
  cases hl : (cache.get s).links_ key with
  | some addr =>
    obtain ⟨c, v, hhit, -⟩ := insert_hit cache h hl make
    rw [hhit] at hrun
    cases hrun
  | none =>
    rw [insert_of_no_link cache hl] at hrun
    cases hroom : (cache.get s).makeRoom with
    | error e' =>
      rw [hroom] at hrun
      cases hrun
      exact .inl (makeRoom_error hroom)
    | ok c =>
      rw [hroom] at hrun
      dsimp only at hrun
      refine .inr ⟨c, ?_⟩
      cases hm : make.run (cache.set c s) with
      | error e' t =>
        rw [hm] at hrun
        cases hrun
        rfl
      | ok v t =>
        rw [hm] at hrun
        cases hrun

end

theorem maps_of_deref {c : LRUCache κ α} {addr : ℕ} {v : α} (h : c.deref addr = some v) :
    ∃ k, c.Maps k v := by
  obtain ⟨e, he, rfl⟩ := Option.map_eq_some_iff.mp h
  exact ⟨e.first, e, List.mem_of_find?_eq_some he, rfl, rfl⟩

theorem deref_modifyAt {c : LRUCache κ α} {addr : ℕ} {v : α} (h : c.deref addr = some v) (f : α → α) :
    (c.modifyAt addr f).deref addr = some (f v) := by
  obtain ⟨e, he, rfl⟩ := Option.map_eq_some_iff.mp h
  have ha : e.addr = addr := by simpa using List.find?_some he
  have hsame : ((fun e : Node κ α ↦ decide (e.addr = addr)) ∘ fun e ↦
      if e.addr = addr then { e with second := f e.second } else e) = fun e ↦ decide (e.addr = addr) := by
    funext e'
    simp only [Function.comp_apply]
    split <;> rfl
  rw [deref, modifyAt, List.find?_map, hsame, he]
  simp [ha]

theorem modifyAt_valid {c : LRUCache κ α} (h : c.Valid) (addr : ℕ) (f : α → α) :
    (c.modifyAt addr f).Valid := by
  have hfirst : (c.modifyAt addr f).entries_.map (·.first) = c.entries_.map (·.first) := by
    rw [modifyAt, List.map_map]
    refine List.map_congr_left fun e _ ↦ ?_
    rw [Function.comp_apply]
    split <;> rfl
  have haddr : (c.modifyAt addr f).entries_.map (·.addr) = c.entries_.map (·.addr) := by
    rw [modifyAt, List.map_map]
    refine List.map_congr_left fun e _ ↦ ?_
    rw [Function.comp_apply]
    split <;> rfl
  refine ⟨by rw [hfirst]; exact h.keys, by rw [haddr]; exact h.addrs, ?_, ?_, ?_, h.bound⟩
  · intro e he
    have hm := List.mem_map_of_mem (f := (·.addr)) he
    rw [haddr] at hm
    obtain ⟨e', he', ha⟩ := List.mem_map.mp hm
    rw [← ha]
    exact h.fresh e' he'
  · intro k a
    rw [show (c.modifyAt addr f).links_ k = c.links_ k from rfl, h.links]
    simp only [modifyAt, List.mem_map, exists_exists_and_eq_and]
    refine exists_congr fun e ↦ and_congr_right fun _ ↦ ?_
    split <;> rfl
  · rw [modifyAt, List.length_map]
    exact h.size

theorem maps_modifyAt {c : LRUCache κ α} (h : c.Valid) {addr : ℕ} {f : α → α} {k : κ} {v : α}
    (hm : (c.modifyAt addr f).Maps k v) :
    ∃ v', c.Maps k v' ∧ (v = v' ∨ (c.deref addr = some v' ∧ v = f v')) := by
  obtain ⟨e, he, hk, hv⟩ := hm
  obtain ⟨e', he', rfl⟩ := List.mem_map.mp he
  by_cases ha : e'.addr = addr
  · rw [if_pos ha] at hk hv
    refine ⟨e'.second, ⟨e', he', hk, rfl⟩, .inr ⟨?_, hv.symm⟩⟩
    rw [deref, ← ha, find_addr h he']
    rfl
  · rw [if_neg ha] at hk hv
    exact ⟨e'.second, ⟨e', he', hk, rfl⟩, .inl hv.symm⟩

theorem modifyAt_modifyAt (c : LRUCache κ α) (addr : ℕ) (f g : α → α) :
    (c.modifyAt addr f).modifyAt addr g = c.modifyAt addr fun v ↦ g (f v) := by
  simp only [modifyAt, List.map_map]
  refine congrArg (fun l ↦ { c with entries_ := l }) (List.map_congr_left fun e _ ↦ ?_)
  by_cases ha : e.addr = addr
  · simp [ha]
  · simp [ha]

theorem modifyAt_congr {c : LRUCache κ α} (h : c.Valid) {addr : ℕ} {v : α} (hd : c.deref addr = some v)
    {f g : α → α} (hfg : f v = g v) : c.modifyAt addr f = c.modifyAt addr g := by
  refine congrArg (fun l ↦ { c with entries_ := l }) (List.map_congr_left fun e he ↦ ?_)
  split
  · next ha =>
    have hv : e.second = v := by
      rw [deref, ← ha, find_addr h he] at hd
      exact Option.some.inj hd
    rw [hv, hfg]
  · rfl

theorem modifyAt_self (c : LRUCache κ α) (addr : ℕ) : (c.modifyAt addr fun v ↦ v) = c := by
  have hself : c.entries_.map (fun e ↦ if e.addr = addr then { e with second := e.second } else e) =
      c.entries_ := (List.map_congr_left fun e _ ↦ by split <;> rfl).trans c.entries_.map_id
  rw [modifyAt, hself]

end LRUCache

end RiscvSim
