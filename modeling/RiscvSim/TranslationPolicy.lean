import RiscvSim.CachedTraces
import RiscvSim.JitRuns

namespace RiscvSim

open Isa Ir State Results

namespace LRUCache

variable {σ κ α : Type} {c : LRUCache κ α} {addr : ℕ} {v : α}

theorem deref_eq_some (h : c.Valid) :
    c.deref addr = some v ↔ ∃ e ∈ c.entries_, e.addr = addr ∧ e.second = v := by
  constructor
  · intro hd
    obtain ⟨e, he, hv⟩ := Option.map_eq_some_iff.mp hd
    exact ⟨e, List.mem_of_find?_eq_some he, by simpa using List.find?_some he, hv⟩
  · rintro ⟨e, he, rfl, rfl⟩
    rw [deref, find_addr h he]
    rfl

theorem deref_lt (h : c.Valid) (hd : c.deref addr = some v) : addr < c.fresh := by
  obtain ⟨e, he, rfl, -⟩ := (deref_eq_some h).mp hd
  exact h.fresh e he

theorem deref_mono {c' : LRUCache κ α} (h : c.Valid) (h' : c'.Valid)
    (hsub : ∀ e ∈ c'.entries_, e ∈ c.entries_) (hd : c'.deref addr = some v) : c.deref addr = some v := by
  obtain ⟨e, he, hr⟩ := (deref_eq_some h').mp hd
  exact (deref_eq_some h).mpr ⟨e, hsub e he, hr⟩

theorem deref_modifyAt_of_ne (h : c.Valid) {a : ℕ} (hne : a ≠ addr) (f : α → α)
    (hd : (c.modifyAt addr f).deref a = some v) : c.deref a = some v := by
  obtain ⟨e, he, rfl, rfl⟩ := (deref_eq_some (modifyAt_valid h addr f)).mp hd
  obtain ⟨e', he', rfl⟩ := List.mem_map.mp he
  by_cases ha : e'.addr = addr
  · rw [if_pos ha] at hne
    exact absurd ha hne
  · rw [if_neg ha]
    exact (deref_eq_some h).mpr ⟨e', he', rfl, rfl⟩

/-- A reference that `insert` returns is old, or the next address with the value just made; whatever
else the cache holds it has held. -/
theorem insert_deref [DecidableEq κ] (cache : Member σ κ α) {s s' : σ} (h : (cache.get s).Valid) {key : κ}
    {make : EStateM Stop σ α} (hmake : ∀ t v t', make.run t = .ok v t' → cache.get t' = cache.get t)
    {res : ℕ × Bool} (hrun : (insert cache key make).run s = .ok res s') :
    ((cache.get s').fresh = (cache.get s).fresh ∧
      ∀ a v, (cache.get s').deref a = some v → (cache.get s).deref a = some v) ∨
    (res.1 = (cache.get s).fresh ∧ (cache.get s').fresh = (cache.get s).fresh + 1 ∧
      ∃ t t' v, make.run t = .ok v t' ∧ ∀ a w, (cache.get s').deref a = some w →
        (a = res.1 ∧ w = v) ∨ (cache.get s).deref a = some w) := by
  obtain ⟨-, hvalid, -⟩ := insert_ok cache h hmake hrun
  cases hl : (cache.get s).links_ key with
  | some addr =>
    obtain ⟨c, v, hc, hv, -, -, he, -, -, hfresh⟩ := spliceFront_spec h hl
    rw [insert_of_link cache hl, hc] at hrun
    cases hrun
    rw [cache.get_set]
    exact .inl ⟨hfresh, fun a w ↦ deref_mono h hv fun e ↦ (he e).mp⟩
  | none =>
    rw [insert_of_no_link cache hl] at hrun
    cases hroom : (cache.get s).makeRoom with
    | error e =>
      rw [hroom] at hrun
      cases hrun
    | ok c =>
      rw [hroom] at hrun
      dsimp only at hrun
      have hs : ¬ (cache.get s).Stuck := by
        intro hs
        rw [makeRoom, if_neg (by rw [hs.2]; exact lt_irrefl _), hs.1] at hroom
        cases hroom
      obtain ⟨c', hc', hv, hfresh, hlen, hsub, -⟩ := makeRoom_spec h hs
      rw [hroom] at hc'
      cases hc'
      cases hm : make.run (cache.set c s) with
      | error e t =>
        rw [hm] at hrun
        cases hrun
      | ok v t =>
        rw [hm] at hrun
        cases hrun
        have ht := hmake _ _ _ hm
        rw [cache.get_set] at ht
        rw [cache.get_set, ht] at hvalid
        rw [cache.get_set, ht]
        refine .inr ⟨hfresh, congrArg (· + 1) hfresh, _, _, v, hm, fun a w hd ↦ ?_⟩
        obtain ⟨e, he, rfl, rfl⟩ := (deref_eq_some hvalid).mp hd
        rcases List.mem_cons.mp he with rfl | he
        · exact .inl ⟨rfl, rfl⟩
        · exact .inr ((deref_eq_some h).mpr ⟨e, hsub e he, rfl, rfl⟩)

end LRUCache

namespace Trace

def Supported (trace : Trace) : Prop := ∀ inst ∈ trace.trace_, inst.isTranslationSupported = true

theorem getFunc_of_supported {trace : Trace} (h : trace.Supported) (virt : Bool) :
    ∃ func, Translator.getFunc trace.trace_ virt = some func := by
  refine ⟨_, if_pos ?_⟩
  rw [List.all_eq_true]
  exact h

theorem getFunc_of_not_supported {trace : Trace} (h : ¬ trace.Supported) (virt : Bool) :
    Translator.getFunc trace.trace_ virt = none := by
  refine if_neg fun hall ↦ h ?_
  rw [List.all_eq_true] at hall
  exact hall

/-- What `execute` has made of a trace that it was called on `k` times. -/
structure Managed (opts : Options) (k : ℕ) (trace : Trace) : Prop where
  off : opts.jit = false → trace.exec_num_ = 0 ∧ trace.is_eligible_ = true ∧ trace.exec_trace_ = none
  cold : opts.jit = true → k ≤ opts.jit_threshold.toNat →
    trace.exec_num_ = BitVec.ofNat 64 k ∧ trace.is_eligible_ = true ∧ trace.exec_trace_ = none
  hot : opts.jit = true → opts.jit_threshold.toNat < k → trace.exec_num_ = opts.jit_threshold + 1
  translated : opts.jit = true → opts.jit_threshold.toNat < k → trace.Supported →
    trace.is_eligible_ = true ∧ ∃ virt func, trace.exec_trace_ = some func ∧
      Translator.getFunc trace.trace_ virt = some func
  failed : opts.jit = true → opts.jit_threshold.toNat < k → ¬ trace.Supported →
    trace.is_eligible_ = false ∧ trace.exec_trace_ = none

variable {opts : Options} {k : ℕ} {trace : Trace}

theorem Managed.new (opts : Options) (insts : List Inst) : Managed opts 0 { trace_ := insts } where
  off _ := ⟨rfl, rfl, rfl⟩
  cold _ _ := ⟨rfl, rfl, rfl⟩
  hot _ h := absurd h (Nat.not_lt_zero _)
  translated _ h := absurd h (Nat.not_lt_zero _)
  failed _ h := absurd h (Nat.not_lt_zero _)

/-- Each call counts until the threshold is passed, and the one that passes it translates. -/
theorem Managed.next (h : Managed opts k trace) (virt : Bool) :
    Managed opts (k + 1) (attempted opts virt trace) := by
  cases hjit : opts.jit with
  | false =>
    have hidle : attempted opts virt trace = trace := if_neg (by simp [hjit])
    rw [hidle]
    refine ⟨h.off, ?_, ?_, ?_, ?_⟩ <;> simp [hjit]
  | true =>
    rcases Nat.lt_trichotomy k opts.jit_threshold.toNat with hlt | heq | hgt
    · obtain ⟨hnum, hel, hcode⟩ := h.cold hjit hlt.le
      have hne : opts.jit_threshold ≠ trace.exec_num_ := by
        rw [hnum]
        intro he
        have hn := congrArg BitVec.toNat he
        rw [BitVec.toNat_ofNat] at hn
        have hbound := opts.jit_threshold.isLt
        omega
      rw [attempted_waits ⟨hjit, hel, by rw [hcode]; rfl⟩ hne]
      refine ⟨?_, fun _ _ ↦ ⟨?_, hel, hcode⟩, ?_, ?_, ?_⟩
      · simp [hjit]
      · rw [hnum]
        exact BitVec.ofNat_add_ofNat k 1
      all_goals
        intro _ hlt'
        omega
    · obtain ⟨hnum, hel, hcode⟩ := h.cold hjit heq.le
      have hon : opts.jit ∧ trace.is_eligible_ ∧ trace.exec_trace_.isNone := ⟨hjit, hel, by rw [hcode]; rfl⟩
      have hthr : opts.jit_threshold = trace.exec_num_ := by
        rw [hnum, heq]
        exact ((BitVec.ofNat_toNat 64 _).trans (BitVec.setWidth_eq _)).symm
      by_cases hs : trace.Supported
      · obtain ⟨func, hf⟩ := getFunc_of_supported hs virt
        rw [attempted_some hon hthr hf]
        refine ⟨?_, ?_, fun _ _ ↦ ?_, fun _ _ _ ↦ ⟨hel, virt, func, rfl, hf⟩, fun _ _ hns ↦ absurd hs hns⟩
        · simp [hjit]
        · intro _ hle
          omega
        · rw [hthr]
      · rw [attempted_none hon hthr (getFunc_of_not_supported hs virt)]
        refine ⟨?_, ?_, fun _ _ ↦ ?_, fun _ _ hs' ↦ absurd hs' hs, fun _ _ _ ↦ ⟨rfl, hcode⟩⟩
        · simp [hjit]
        · intro _ hle
          omega
        · rw [hthr]
    · have hidle : attempted opts virt trace = trace := by
        refine if_neg fun hon ↦ ?_
        obtain ⟨-, hel, hnone⟩ := hon
        by_cases hs : trace.Supported
        · obtain ⟨-, -, func, hcode, -⟩ := h.translated hjit hgt hs
          rw [hcode] at hnone
          cases hnone
        · rw [(h.failed hjit hgt hs).1] at hel
          cases hel
      rw [hidle]
      refine ⟨h.off, ?_, fun _ _ ↦ h.hot hjit hgt, fun _ _ ↦ h.translated hjit hgt,
        fun _ _ ↦ h.failed hjit hgt⟩
      intro _ hle
      omega

end Trace

namespace Sim

variable {opts : Options} {host : Host} {s s₁ t u : State} {l : List ℕ} {addr : ℕ} {trace : Trace} {n : ℕ}

/-- The rounds of the loop, with the addresses of the traces they began, the last one first. -/
inductive Calls (opts : Options) (host : Host) (s : State) : List ℕ → State → Prop
  | nil : Calls opts host s [] s
  | next {l : List ℕ} {t t₁ u : State} {addr : ℕ} {trace : Trace} : Calls opts host s l t →
      Begins opts host t addr trace t₁ → (iteration opts host).run t = .ok () u → ¬ LimitReached opts u →
      Calls opts host s (addr :: l) u

/-- After these calls the traces of the cache are as the calls have left them. -/
structure Accounted (opts : Options) (l : List ℕ) (s : State) : Prop where
  sound : Sound opts.jit IsTrace s
  fresh : ∀ a ∈ l, a < s.trace_cache.fresh
  managed : ∀ a trace, s.trace_cache.deref a = some trace → trace.Managed opts (l.count a)

namespace Accounted

theorem new {cap : ℕ} (h : s.trace_cache = .new cap) : Accounted opts [] s where
  sound := .new cap h
  fresh a ha := absurd ha List.not_mem_nil
  managed a trace hd := by
    rw [h] at hd
    cases hd

theorem refer (h : Accounted opts l s) (hrun : (TraceCache.refer host).run s = .ok addr t) :
    Accounted opts l t := by
  obtain ⟨hsound, -⟩ := TraceCache.refer_sound h.sound (fetches_isTrace host s) hrun
  obtain ⟨pc, s₁, hpc, h₁⟩ := run_bind_eq_ok.mp hrun
  cases hpc
  obtain ⟨res, s₂, hins, h₂⟩ := run_bind_eq_ok.mp h₁
  cases h₂
  rcases LRUCache.insert_deref cache h.sound.valid (fun _ _ _ ↦ Trace.new_cache) hins with
    ⟨hfresh, hold⟩ | ⟨haddr, hfresh, t₀, t', v, hnew, hold⟩
  · refine ⟨hsound, fun a ha ↦ ?_, fun a trace hd ↦ h.managed a trace (hold a trace hd)⟩
    change a < (cache.get t).fresh
    rw [hfresh]
    exact h.fresh a ha
  · refine ⟨hsound, fun a ha ↦ ?_, fun a trace hd ↦ ?_⟩
    · change a < (cache.get t).fresh
      rw [hfresh]
      exact (h.fresh a ha).trans (Nat.lt_succ_self _)
    · rcases hold a trace hd with ⟨rfl, rfl⟩ | hd'
      · obtain ⟨insts, rfl, -⟩ := Trace.new_ok hnew
        have hnever : res.1 ∉ l := fun hm ↦ absurd (h.fresh _ hm) (by rw [haddr]; exact lt_irrefl _)
        rw [List.count_eq_zero_of_not_mem hnever]
        exact .new opts insts
      · exact h.managed a trace hd'

theorem attempts (h : Accounted opts l s) (hd : s.trace_cache.deref addr = some trace)
    (hrun : (Trace.tryTranslate opts addr).run s = .ok () t) : Accounted opts (addr :: l) t := by
  rw [Trace.tryTranslate_eq opts h.sound.valid hd] at hrun
  cases hrun
  refine ⟨h.sound.links (.modifyAt h.sound.valid hd (Trace.attempted_linked opts _ trace)), fun a ha ↦ ?_,
    fun a trace' hd' ↦ ?_⟩
  · rcases List.mem_cons.mp ha with rfl | ha
    · have hlt := LRUCache.deref_lt h.sound.valid hd
      exact hlt
    · exact h.fresh a ha
  · by_cases ha : a = addr
    · subst ha
      rw [List.count_cons_self]
      rw [LRUCache.deref_modifyAt hd] at hd'
      cases hd'
      exact (h.managed a trace hd).next _
    · rw [List.count_cons_of_ne (Ne.symm ha)]
      exact h.managed a trace' (LRUCache.deref_modifyAt_of_ne h.sound.valid ha _ hd')

theorem begins (h : Accounted opts l s) (hb : Begins opts host s addr trace s₁) :
    Accounted opts (addr :: l) s₁ ∧ trace.Managed opts (l.count addr + 1) := by
  obtain ⟨s₀, hr, ht⟩ := hb.split
  obtain ⟨-, trace₀, hd⟩ := TraceCache.refer_sound h.sound (fetches_isTrace host s) hr
  have h₁ := (h.refer hr).attempts hd ht
  refine ⟨h₁, ?_⟩
  have hm := h₁.managed addr trace hb.alive
  rwa [List.count_cons_self] at hm

theorem next (h : Accounted opts l s) (hb : Begins opts host s addr trace s₁)
    (hrun : (iteration opts host).run s = .ok () u) : Accounted opts (addr :: l) u := by
  obtain ⟨h₁, -⟩ := h.begins hb
  have hsound := iteration_sound h.sound (fetches_isTrace host s) (fun _ ht ↦ ht) hrun
  rcases hb.fenced h.sound hrun with ⟨-, hcache, -⟩ | ⟨-, hcache, -⟩
  · refine ⟨hsound, ?_, ?_⟩
    · rw [hcache]
      exact h₁.fresh
    · rw [hcache]
      exact h₁.managed
  · refine ⟨hsound, ?_, fun a trace' hd ↦ ?_⟩
    · rw [hcache]
      exact h₁.fresh
    · rw [hcache] at hd
      cases hd

end Accounted

variable {cap : ℕ} (hcache : s.trace_cache = .new cap)

include hcache

theorem Calls.accounted (h : Calls opts host s l t) : Accounted opts l t := by
  induction h with
  | nil => exact .new hcache
  | next _ hb hrun _ ih => exact ih.next hb hrun

theorem Rounds.calls (h : Rounds opts host s n t) : ∃ l, l.length = n ∧ Calls opts host s l t := by
  induction h with
  | zero => exact ⟨[], rfl, .nil⟩
  | @next n t u ht hrun hlim ih =>
    obtain ⟨l, hlen, hl⟩ := ih
    rcases begins_or_error (hl.accounted hcache).sound (fetches_isTrace host t) with
      ⟨e, v, -, he⟩ | ⟨addr, trace, t₁, hb⟩
    · rw [he] at hrun
      cases hrun
    · exact ⟨addr :: l, congrArg (· + 1) hlen, hl.next hb hrun hlim⟩

/-- A trace is translated in the call that passes the threshold, once, and runs as native code from
then on; a trace without a template for each instruction is tried once. -/
theorem translated_at_threshold (hr : Rounds opts host s n t) : ∃ l, l.length = n ∧ Calls opts host s l t ∧
    (∀ addr trace, t.trace_cache.deref addr = some trace → trace.Managed opts (l.count addr)) ∧
    ∀ addr trace t₁, Begins opts host t addr trace t₁ → trace.Managed opts (l.count addr + 1) ∧
      (trace.exec_trace_.isSome ↔
        opts.jit = true ∧ opts.jit_threshold.toNat ≤ l.count addr ∧ trace.Supported) := by
  obtain ⟨l, hlen, hl⟩ := hr.calls hcache
  have h := hl.accounted hcache
  refine ⟨l, hlen, hl, h.managed, fun addr trace t₁ hb ↦ ?_⟩
  obtain ⟨-, hm⟩ := h.begins hb
  refine ⟨hm, ?_⟩
  cases hjit : opts.jit with
  | false =>
    rw [(hm.off hjit).2.2]
    simp
  | true =>
    by_cases hle : opts.jit_threshold.toNat ≤ l.count addr
    · by_cases hs : trace.Supported
      · obtain ⟨-, virt, func, hcode, -⟩ := hm.translated hjit (Nat.lt_succ_of_le hle) hs
        simp [hcode, hle, hs]
      · obtain ⟨-, hcode⟩ := hm.failed hjit (Nat.lt_succ_of_le hle) hs
        simp [hcode, hs]
    · obtain ⟨-, -, hcode⟩ := hm.cold hjit (Nat.succ_le_of_lt (Nat.lt_of_not_le hle))
      simp [hcode, hle]

omit hcache

/-- With the threshold at 0 the loop of the program is translated in its first round. -/
theorem translated_at_threshold_countdown : ∃ addr trace t₁,
    Begins ⟨true, 0, 0⟩ countdown.host countdown addr trace t₁ ∧ trace.trace_ = countdown.loop ∧
      trace.exec_trace_.isSome = true := by
  let opts : Options := ⟨true, 0, 0⟩
  obtain ⟨hloop, -⟩ := countdown.builds (countdown.fuel_host 0)
  have hcap : countdown.trace_cache = .new 1 := rfl
  have hcurrent : Current countdown.host opts.jit ∅ countdown := .new le_rfl hcap
  have hv : countdown.mmu.isVirtualAddressing = false := by decide
  rcases hcurrent.begins opts hv with ⟨e, c, hb, -⟩ | ⟨addr, c, trace, hb, hbegins, -⟩
  · cases hb.symm.trans hloop
  · have hinsts : trace.trace_ = countdown.loop := Except.ok.inj (hb.symm.trans hloop)
    have hzero : Rounds opts countdown.host countdown 0 countdown := .zero
    obtain ⟨l, -, -, -, hnext⟩ := translated_at_threshold hcap hzero
    obtain ⟨-, hcode⟩ := hnext addr trace _ hbegins
    have hsup : trace.Supported := by
      intro inst hi
      rw [hinsts] at hi
      exact List.all_eq_true.mp (by decide : countdown.loop.all Inst.isTranslationSupported = true) inst hi
    exact ⟨addr, trace, _, hbegins, hinsts, hcode.mpr ⟨rfl, Nat.zero_le _, hsup⟩⟩

end Sim

end RiscvSim
