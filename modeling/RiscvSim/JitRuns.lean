import RiscvSim.JitRounds
import RiscvSim.InstLimit
import RiscvSim.SettledRuns

namespace RiscvSim

open Isa Ir State Results Simulation SingleStep Translator

namespace Meets

variable {host : Host} {opts : Options} {jit : Bool} {asked : Prop} {s s' t t' : State} {e : Stop}

theorem new {cap : ℕ} (hcap : 1 ≤ cap) (hcache : s.trace_cache = .new cap) (htame : Tame host jit ∅ t)
    (hst : SameMachine s t) (hside : host.layout.Beside s.mmu.pmem_size_) : Meets host jit False s t :=
  ⟨∅, .new hcap hcache, htame, hst, hside, False.elim⟩

theorem new_counted {cap : ℕ} (hcap : 1 ≤ cap) (hcache : s.trace_cache = .new cap) (htame : Tame host jit ∅ t)
    (hst : SameMachine s t) (hside : host.layout.Beside s.mmu.pmem_size_)
    (hcount : s.executed_insts = t.executed_insts) (hfence : Unfenced host t) : Meets host jit True s t :=
  ⟨∅, .new hcap hcache, htame, hst, hside, fun _ ↦ ⟨hcount, hfence⟩⟩

theorem covers (h : Meets host opts.jit asked s t) :
    Covers (Uncached.iteration host) (· = .outOfFuel) (Meets host opts.jit asked) SameMachine 1
      ((Sim.iteration opts host).run s) t := by
  rcases h.round with hcovers | ⟨words, addr, trace, code, s₁, hb, hc, hentered, hjit, hf⟩
  · exact hcovers.mono fun _ hg ↦ hg.elim
  · rw [hb.native hc]
    cases hr : (Trace.native host code).run s₁ with
    | ok u s' =>
      obtain ⟨n, t', hpos, hsteps, hmeets⟩ := hentered.native hjit hf hr
      exact .steps hpos hsteps hmeets
    | error e s' => exact .given (hentered.native_error hjit hf hr)

theorem iterated {n : ℕ} (h : Meets host opts.jit asked s t)
    (hr : (Simulation.iterate (Sim.iteration opts host) n).run s = .ok () s') :
    ∃ m t', n ≤ m ∧ (Simulation.iterate (Uncached.iteration host) m).run t = .ok () t' ∧
      Meets host opts.jit asked s' t' := by
  have hstep : ∀ u v, Meets host opts.jit asked u v →
      Covers _ _ _ _ 1 ((Sim.iteration opts host).run u) v := fun _ _ ↦ Meets.covers
  have hcovers := iterate_covers hstep n h
  rw [hr] at hcovers
  cases hcovers with
  | steps hle hsteps hmeets => exact ⟨_, _, hle, hsteps, hmeets⟩

theorem sameMachine (h : Meets host jit asked s t) : SameMachine s t := by
  obtain ⟨words, h⟩ := h
  exact h.same

theorem count (h : Meets host jit True s t) : s.executed_insts = t.executed_insts := by
  obtain ⟨words, h⟩ := h
  exact (h.count trivial).1

/-- Where the other machine comes to a stop, a round with fuel enough goes on towards it, or stops
there. -/
theorem advances (h : Meets host opts.jit asked s t) (hstop : Stops (Uncached.iteration host) t e t')
    (he : e ≠ .outOfFuel) :
    (∃ k s' n t₁, 1 ≤ n ∧ (iterate (Uncached.iteration host) n).run t = .ok () t₁ ∧
      Meets host opts.jit asked s' t₁ ∧ (Sim.iteration opts (host.more k)).run s = .ok () s') ∨
    ∃ s', (Sim.iteration opts host).run s = .error e s' ∧ SameMachine s' t' := by
  rcases h.round with hcovers | ⟨words, addr, trace, code, s₁, hb, hc, hentered, hjit, hf⟩
  · generalize hr : (Sim.iteration opts host).run s = r at hcovers
    cases hcovers with
    | steps hpos hsteps hmeets => exact .inl ⟨0, _, _, _, hpos, hsteps, hmeets, hr⟩
    | given hg => exact hg.elim
    | stops hstop' hst =>
      obtain ⟨rfl, rfl⟩ := hstop.unique hstop'
      exact .inr ⟨_, rfl, hst⟩
  · obtain ⟨k, s', hr⟩ := hentered.native_returns hjit hf hstop
    obtain ⟨n, t₁, hpos, hsteps, hmeets⟩ := hentered.native hjit hf hr
    refine .inl ⟨k, s', n, t₁, hpos, hsteps, hmeets, ?_⟩
    have hmore : Sim.Begins opts (host.more k) s addr trace s₁ := by
      refine ⟨?_, hb.alive⟩
      exact ((TraceCache.refer_prolongs host k).bind fun _ ↦ .refl _).ok hb.run
    rw [hmore.native hc]
    exact hr

end Meets

namespace Sim

variable {host : Host} {opts : Options} {asked : Prop} {s s' t t' : State} {e : Stop}

theorem Rounds.iterate {n : ℕ} (h : Rounds opts host s n s') :
    (iterate (iteration opts host) n).run s = .ok () s' := by
  induction h with
  | zero => rfl
  | next _ hrun _ ih => exact iterate_add_eq_ok.mpr ⟨_, ih, iterate_one.mpr hrun⟩

theorem Rounds.meets {n : ℕ} (h : Meets host opts.jit asked s t) (hr : Rounds opts host s n s') :
    ∃ m t', n ≤ m ∧ (Simulation.iterate (Uncached.iteration host) m).run t = .ok () t' ∧
      Meets host opts.jit asked s' t' :=
  h.iterated hr.iterate

theorem stops_of_execute (h : Meets host opts.jit asked s t) {fuel : ℕ}
    (hrun : (execute opts host fuel).run s = .error e s') (he : e ≠ .outOfFuel) :
    ∃ t', Stops (Uncached.iteration host) t e t' ∧ SameMachine s' t' := by
  have hzero : Rounds opts host s 0 s := .zero
  have hrounds := execute_rounds hzero fuel
  rw [hrun] at hrounds
  rcases hrounds with ⟨m, u, hr, hlast⟩ | ⟨hout, -⟩
  · obtain ⟨n, v, -, hsteps, hv⟩ := hr.meets h
    have hcovers := hv.covers
    rw [hlast] at hcovers
    cases hcovers with
    | given hout => exact absurd hout he
    | stops hstop hst => exact ⟨_, hstop.of_iterate hsteps, hst⟩
  · exact absurd hout he

def EndsIn (opts : Options) (host : Host) (s : State) (e : Stop) (u : State) : Prop :=
  ∃ k n s', SameMachine s' u ∧ ∀ j m, (execute opts (host.more (k + j)) (n + m)).run s = .error e s'

theorem EndsIn.of_error {k n : ℕ} (hst : SameMachine s' t) (he : e ≠ .outOfFuel)
    (hrun : (execute opts (host.more k) n).run s = .error e s') : EndsIn opts host s e t := by
  refine ⟨k, n, s', hst, fun j m ↦ ?_⟩
  have hmore : (host.more k).more j = host.more (k + j) := by
    rw [Host.more, Host.more, Host.more, Nat.add_assoc]
  rw [← hmore]
  exact (execute_prolongs opts (host.more k) j n m).error hrun he

theorem EndsIn.congr {u : State} (h : EndsIn opts host s e t) (hst : SameMachine t u) :
    EndsIn opts host s e u := by
  obtain ⟨k, n, s', hst', hrun⟩ := h
  exact ⟨k, n, s', hst'.trans hst, hrun⟩

theorem ends_of_stops (hmax : opts.max_insts = 0) (h : Meets host opts.jit asked s t)
    (hstop : Stops (Uncached.iteration host) t e t') (he : e ≠ .outOfFuel) : EndsIn opts host s e t' := by
  obtain ⟨n, u, hu, hlast⟩ := hstop
  induction n using Nat.strong_induction_on generalizing s t with
  | _ n ih =>
    rcases h.advances ⟨n, u, hu, hlast⟩ he with ⟨k, s₁, m, t₁, hpos, hsteps, h₁, hrun⟩ | ⟨s', hrun, hst⟩
    · have hle := le_of_iterate_stops hu hlast hsteps
      obtain ⟨j, rfl⟩ := Nat.exists_eq_add_of_le hle
      rw [iterate_add hsteps] at hu
      obtain ⟨k', n', s', hst, hrest⟩ := ih j (by omega) h₁ hu
      refine .of_error (k := k + k') (n := n' + 1) hst he ?_
      have hfirst := (iteration_prolongs opts (host.more k) k').ok hrun
      have hmore : (host.more k).more k' = host.more (k' + k) := by
        rw [Host.more, Host.more, Host.more, Nat.add_assoc, Nat.add_comm k' k]
      rw [hmore] at hfirst
      rw [Nat.add_comm k k', execute, run_bind_of_ok hfirst, run_bind_of_ok (EStateM.run_get s₁),
        if_neg fun hlim ↦ hlim.1 hmax]
      exact hrest k 0
    · have hrun' : (iteration opts (host.more 0)).run s = .error e s' := hrun
      refine .of_error (k := 0) (n := 1) hst he ?_
      rw [execute, run_bind_of_error hrun']

/-- Where the machine stops that takes single steps, the one without a cache does, or it fails to fetch
the trace it would begin last. -/
theorem stops_of_steps {n : ℕ} (hf : n < host.fuel) (hset : ∀ k, Settled host k ∅ s)
    (hside : host.layout.Beside s.mmu.pmem_size_) (hrun : (Simulation.iterate step n).run s = .ok () t)
    (hstop : step.run t = .error e t') : ∃ m b, LastHead s n m b ∧
      (∀ insts, b.mmu.buildFrom host.fuel b.pc = .ok insts → e ≠ .outOfFuel →
        ∃ v, Stops (Uncached.iteration host) s e v ∧ SameMachine (t'.withPC b.pc) v) ∧
      ∀ f, b.mmu.buildFrom host.fuel b.pc = .error f → f ≠ .outOfFuel →
        ∃ v, Stops (Uncached.iteration host) s f v ∧ SameMachine b v := by
  -- the loop that interprets leads from the one machine to the other
  let plain : Options := ⟨false, 0, 0⟩
  have hmeets : Meets host plain.jit False { s with trace_cache := .new 1 } s :=
    .new le_rfl rfl (Settled.tame hset nofun) ⟨rfl, rfl, rfl, rfl⟩ hside
  have hstops : ∀ f v, Ends plain host { s with trace_cache := .new 1 } f v → f ≠ .outOfFuel →
      ∃ v', Stops (Uncached.iteration host) s f v' ∧ SameMachine v v' := by
    intro f v hends hne
    obtain ⟨k, w, hvw, hexec⟩ := hends
    obtain ⟨v', hstops, hst⟩ := stops_of_execute hmeets (hexec 0) hne
    exact ⟨v', hstops, hvw.trans hst⟩
  have hsame : SameMachine { s with trace_cache := .new 1 } s := ⟨rfl, rfl, rfl, rfl⟩
  have hco : TraceCache.Coherent host ∅ { s with trace_cache := .new 1 } := .new le_rfl rfl
  have hjit : plain.jit = false := rfl
  obtain ⟨m, b, hhead, -, hok, herr⟩ := ends_at_head hjit rfl hf hco hsame hset hrun hstop
  exact ⟨m, b, hhead, fun insts hb hne ↦ hstops e _ (hok insts hb) hne,
    fun f hb hne ↦ hstops f b (herr f hb) hne⟩

theorem stops_countdown : ∃ v, Stops (Uncached.iteration countdown.host) countdown
    (.simException "Successfully finished!\n") v ∧ v.regs.get 2 = 0xffffffff := by
  obtain ⟨m, b, hhead, hok, -⟩ := stops_of_steps (by decide : 7 < countdown.host.fuel) (countdown.settled ∅)
    countdown.beside countdown.runs countdown.exits
  obtain ⟨insts, hb⟩ := countdown.builds_last hhead
  obtain ⟨v, hv, hst⟩ := hok insts hb nofun
  refine ⟨v, hv, ?_⟩
  rw [← hst.regs]
  exact (by decide : countdown.last.get 2 = 0xffffffff)

theorem exit_countdown : ∃ k fuel u, (execute ⟨true, 0, 0⟩ (countdown.host.more k) fuel).run countdown =
    .error (.simException "Successfully finished!\n") u := by
  obtain ⟨v, hstops, -⟩ := stops_countdown
  have hcap : countdown.trace_cache = .new 1 := rfl
  let opts : Options := ⟨true, 0, 0⟩
  have hmeets : Meets countdown.host opts.jit False countdown countdown :=
    .new le_rfl hcap (countdown.tame (by decide)) ⟨rfl, rfl, rfl, rfl⟩ countdown.beside
  obtain ⟨k, n, u, -, hrun⟩ := ends_of_stops rfl hmeets hstops nofun
  exact ⟨k, n, u, hrun 0 0⟩

/-- Whatever the options and the size of the cache, with native code or without, the loop does what the
machine does that fetches every trace anew and interprets it. -/
theorem execute_follows (opts : Options) {cap : ℕ} (hcap : 1 ≤ cap) (hcache : s.trace_cache = .new cap)
    (hquiet : ∀ n, Quiet host n ∅ s) (hsafe : opts.jit = true → SafeTraces host s)
    (hside : host.layout.Beside s.mmu.pmem_size_) :
    (∀ n s', Rounds opts host s n s' → ∃ m t', n ≤ m ∧
      (Simulation.iterate (Uncached.iteration host) m).run s = .ok () t' ∧ SameMachine s' t') ∧
    (∀ fuel s', (execute opts host fuel).run s = .ok () s' → LimitReached opts s' ∧ ∃ m t',
      (Simulation.iterate (Uncached.iteration host) m).run s = .ok () t' ∧ SameMachine s' t') ∧
    ∀ fuel e s', (execute opts host fuel).run s = .error e s' → e ≠ .outOfFuel →
      ∃ t', Stops (Uncached.iteration host) s e t' ∧ SameMachine s' t' := by
  have hmeets : Meets host opts.jit False s s :=
    .new hcap hcache ⟨hquiet, hsafe⟩ ⟨rfl, rfl, rfl, rfl⟩ hside
  have hzero : Rounds opts host s 0 s := .zero
  refine ⟨fun n s' hr ↦ ?_, fun fuel s' hrun ↦ ?_, fun fuel e s' hrun he ↦ ?_⟩
  · obtain ⟨m, t', hle, hsteps, h⟩ := hr.meets hmeets
    exact ⟨m, t', hle, hsteps, h.sameMachine⟩
  · have hrounds := execute_rounds hzero fuel
    rw [hrun] at hrounds
    obtain ⟨m, u, hr, hlast, hlim⟩ := hrounds
    obtain ⟨n, t, -, hsteps, h⟩ := hr.meets hmeets
    have hcovers := h.covers
    rw [hlast] at hcovers
    cases hcovers with
    | @steps k _ _ t' _ hsteps' h' =>
      exact ⟨hlim, n + k, t', iterate_add_eq_ok.mpr ⟨t, hsteps, hsteps'⟩, h'.sameMachine⟩
  · exact stops_of_execute hmeets hrun he

/-- The program ends in its exit syscall, translated from the first execution on. -/
theorem execute_follows_countdown : ∃ k fuel u t',
    (execute ⟨true, 0, 0⟩ (countdown.host.more k) fuel).run countdown =
      .error (.simException "Successfully finished!\n") u ∧
    Stops (Uncached.iteration (countdown.host.more k)) countdown
      (.simException "Successfully finished!\n") t' ∧ SameMachine u t' := by
  obtain ⟨k, fuel, u, hrun⟩ := exit_countdown
  have hcap : countdown.trace_cache = .new 1 := rfl
  obtain ⟨hquiet, hsafe⟩ : Tame (countdown.host.more k) true ∅ countdown :=
    countdown.tame (countdown.fuel_host k)
  obtain ⟨-, -, hstops⟩ := execute_follows ⟨true, 0, 0⟩ le_rfl hcap hquiet hsafe countdown.beside
  obtain ⟨t', hstop, hst⟩ := hstops fuel _ u hrun nofun
  exact ⟨k, fuel, u, t', hrun, hstop, hst⟩

/-- Every configuration of the simulator comes to the stop of the machine without a cache. -/
theorem execute_ends (hquiet : ∀ n, Quiet host n ∅ s) (hside : host.layout.Beside s.mmu.pmem_size_)
    (hstop : Stops (Uncached.iteration host) s e t') (he : e ≠ .outOfFuel) (opts : Options)
    (hsafe : opts.jit = true → SafeTraces host s) (hmax : opts.max_insts = 0) (cap : ℕ) (hcap : 1 ≤ cap) :
    EndsIn opts host { s with trace_cache := .new cap } e t' :=
  ends_of_stops hmax (.new hcap rfl ⟨hquiet, hsafe⟩ ⟨rfl, rfl, rfl, rfl⟩ hside) hstop he

theorem execute_ends_countdown : ∃ v : State, v.regs.get 2 = 0xffffffff ∧
    EndsIn ⟨true, 0, 0⟩ countdown.host { countdown with trace_cache := .new 2 }
      (.simException "Successfully finished!\n") v := by
  obtain ⟨v, hstops, hreg⟩ := stops_countdown
  obtain ⟨hquiet, hsafe⟩ : Tame countdown.host true ∅ countdown := countdown.tame (by decide)
  exact ⟨v, hreg, execute_ends hquiet countdown.beside hstops nofun ⟨true, 0, 0⟩ hsafe rfl 2 (by decide)⟩

/-- Whatever the options and the size of the cache, each round of the loop ends where the machine comes
to that takes single steps. -/
theorem rounds_step (opts : Options) (hset : ∀ n, Settled host n ∅ s)
    (hsafe : opts.jit = true → SafeSteps host s) (hside : host.layout.Beside s.mmu.pmem_size_) {cap : ℕ}
    (hcap : 1 ≤ cap) {n : ℕ} {s' : State}
    (hr : Rounds opts host { s with trace_cache := .new cap } n s') :
    ∃ m t, n ≤ m ∧ (iterate step m).run s = .ok () t ∧ SameMachine t s' := by
  have hmeets : Meets host opts.jit False { s with trace_cache := .new cap } s :=
    .new hcap rfl (Settled.tame hset hsafe) ⟨rfl, rfl, rfl, rfl⟩ hside
  obtain ⟨m, t, hle, hrun, h⟩ := hr.meets hmeets
  obtain ⟨k, u, hle', hsteps, -, hst, -⟩ := Settled.iterations hset hrun
  exact ⟨k, u, hle.trans hle', hsteps, hst.trans h.sameMachine.symm⟩

theorem rounds_countdown : ∃ k n s' u, Rounds ⟨true, 0, 0⟩ (countdown.host.more k) countdown n s' ∧
    (iteration ⟨true, 0, 0⟩ (countdown.host.more k)).run s' =
      .error (.simException "Successfully finished!\n") u := by
  obtain ⟨k, fuel, u, hrun⟩ := exit_countdown
  have hzero : Rounds ⟨true, 0, 0⟩ (countdown.host.more k) countdown 0 countdown := .zero
  have hrounds := execute_rounds hzero fuel
  rw [hrun] at hrounds
  rcases hrounds with ⟨n, s', hr, hlast⟩ | ⟨hout, -⟩
  · exact ⟨k, n, s', u, hr, hlast⟩
  · cases hout

/-- With the translator on from the first execution and a cache for one trace. -/
theorem rounds_step_countdown : ∃ k n s' u, Rounds ⟨true, 0, 0⟩ (countdown.host.more k) countdown n s' ∧
    (iteration ⟨true, 0, 0⟩ (countdown.host.more k)).run s' =
      .error (.simException "Successfully finished!\n") u ∧
    ∃ m t, n ≤ m ∧ (Simulation.iterate step m).run countdown = .ok () t ∧ SameMachine t s' := by
  obtain ⟨k, n, s', u, hr, hlast⟩ := rounds_countdown
  refine ⟨k, n, s', u, hr, hlast, ?_⟩
  exact rounds_step ⟨true, 0, 0⟩ (countdown.settled ∅) (fun _ ↦ countdown.safeSteps (countdown.fuel_host k))
    countdown.beside le_rfl hr

/-- Without a FENCE the loop counts the steps that the machine takes, whether they are interpreted or
native code. -/
theorem rounds_count (opts : Options) (hset : ∀ n, Settled host n ∅ s)
    (hsafe : opts.jit = true → SafeSteps host s) (hfence : UnfencedSteps host s)
    (hside : host.layout.Beside s.mmu.pmem_size_) {cap : ℕ} (hcap : 1 ≤ cap) {n : ℕ} {s' : State}
    (hr : Rounds opts host { s with trace_cache := .new cap } n s') :
    ∃ m t, (iterate step m).run s = .ok () t ∧ SameMachine t s' ∧
      s'.executed_insts = s.executed_insts + BitVec.ofNat 64 m := by
  have hmeets : Meets host opts.jit True { s with trace_cache := .new cap } s :=
    .new_counted hcap rfl (Settled.tame hset hsafe) ⟨rfl, rfl, rfl, rfl⟩ hside rfl
      (Settled.unfenced hset hfence)
  obtain ⟨m, t, -, hrun, h⟩ := hr.meets hmeets
  obtain ⟨k, u, -, hsteps, -, hst, hcount⟩ := Settled.iterations hset hrun
  exact ⟨k, u, hsteps, hst.trans h.sameMachine.symm, h.count.trans hcount⟩

theorem rounds_count_countdown : ∃ k n s' u, Rounds ⟨true, 0, 0⟩ (countdown.host.more k) countdown n s' ∧
    (iteration ⟨true, 0, 0⟩ (countdown.host.more k)).run s' =
      .error (.simException "Successfully finished!\n") u ∧
    ∃ m t, (Simulation.iterate step m).run countdown = .ok () t ∧ SameMachine t s' ∧
      s'.executed_insts = BitVec.ofNat 64 m := by
  obtain ⟨k, n, s', u, hr, hlast⟩ := rounds_countdown
  obtain ⟨m, t, hsteps, hst, hcount⟩ := rounds_count ⟨true, 0, 0⟩ (countdown.settled ∅)
    (fun _ ↦ countdown.safeSteps (countdown.fuel_host k)) (countdown.unfencedSteps (countdown.fuel_host k))
    countdown.beside le_rfl hr
  refine ⟨k, n, s', u, hr, hlast, m, t, hsteps, hst, hcount.trans ?_⟩
  exact BitVec.zero_add _

/-- Whatever the options and the size of the cache, the loop stops as the machine does that takes single
steps, or, if the trace it would begin last cannot be fetched, for that reason. -/
theorem stops_step {n : ℕ} (hf : n < host.fuel) (hset : Settled host n ∅ s)
    (hside : host.layout.Beside s.mmu.pmem_size_) (hrun : (Simulation.iterate step n).run s = .ok () t)
    (hstop : step.run t = .error e t') : ∃ m b, LastHead s n m b ∧
      ∀ (opts : Options) (cap : ℕ), opts.max_insts = 0 → 1 ≤ cap → (opts.jit = true → SafeSteps host s) →
        (∀ insts, b.mmu.buildFrom host.fuel b.pc = .ok insts → e ≠ .outOfFuel →
          EndsIn opts host { s with trace_cache := .new cap } e (t'.withPC b.pc)) ∧
        ∀ f, b.mmu.buildFrom host.fuel b.pc = .error f → f ≠ .outOfFuel →
          EndsIn opts host { s with trace_cache := .new cap } f b := by
  have hall := hset.extend_all hrun hstop
  obtain ⟨m, b, hhead, hok, herr⟩ := stops_of_steps hf hall hside hrun hstop
  have hgoes : ∀ (opts : Options) (cap : ℕ), opts.max_insts = 0 → 1 ≤ cap →
      (opts.jit = true → SafeSteps host s) → ∀ f v, f ≠ .outOfFuel →
      (∃ v', Stops (Uncached.iteration host) s f v' ∧ SameMachine v v') →
      EndsIn opts host { s with trace_cache := .new cap } f v := by
    intro opts cap hmax hcap hsafe f v hne hstops
    obtain ⟨v', hstops, hst⟩ := hstops
    have hmeets : Meets host opts.jit False { s with trace_cache := .new cap } s :=
      .new hcap rfl (Settled.tame hall hsafe) ⟨rfl, rfl, rfl, rfl⟩ hside
    exact (ends_of_stops hmax hmeets hstops hne).congr hst.symm
  refine ⟨m, b, hhead, fun opts cap hmax hcap hsafe ↦ ⟨fun insts hb hne ↦ ?_, fun f hb hne ↦ ?_⟩⟩
  · exact hgoes opts cap hmax hcap hsafe e _ hne (hok insts hb hne)
  · exact hgoes opts cap hmax hcap hsafe f b hne (herr f hb hne)

theorem stops_step_countdown : ∃ m b, LastHead countdown 7 m b ∧
    EndsIn ⟨true, 0, 0⟩ countdown.host { countdown with trace_cache := .new 1 }
      (.simException "Successfully finished!\n") ((countdown.at_ countdown.last 16).withPC b.pc) := by
  obtain ⟨m, b, hhead, hends⟩ := stops_step (by decide : 7 < countdown.host.fuel) (countdown.settled ∅ 7)
    countdown.beside countdown.runs countdown.exits
  obtain ⟨insts, hb⟩ := countdown.builds_last hhead
  have hsafe := hends ⟨true, 0, 0⟩ 1 rfl le_rfl fun _ ↦ countdown.safeSteps (by decide)
  exact ⟨m, b, hhead, hsafe.1 insts hb nofun⟩

end Sim

end RiscvSim
