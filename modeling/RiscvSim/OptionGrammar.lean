import RiscvSim.ParseOptions
import Mathlib.Data.List.TakeWhile

namespace RiscvSim.Options

open Results

structure Setting where
  var : Var
  value : var.type.denote

/-- The arguments behind the name of an option that give it this value. -/
inductive Spells : (T : Ty) → T.denote → List String → Prop
  | bool : Spells .bool true []
  | unsigned {w : String} {n : U64} (h : stoull w = .ok n) : Spells .unsigned n [w]
  | charPtr (w : String) : Spells .charPtr (some w) [w]

/-- The arguments at which the loop stops, and how it does. -/
inductive Halts : List String → Halt → Prop
  | help (rest : List String) : Halts ("-help" :: rest) .exit
  | unknown {name : String} (rest : List String) (hhelp : "-help" ≠ name) (h : Var.named name = none) :
    Halts (name :: rest) (.invalid_argument ("Unrecognized argument: " ++ name))
  | missing {v : Var} (h : v.type ≠ .bool) :
    Halts [v.opt_name_] (v.unrecognized (.invalid_argument "the required option is not specified"))
  | range {v : Var} {w : String} (rest : List String) (h : v.type = .unsigned)
      (hw : stoull w = .error .out_of_range) :
    Halts (v.opt_name_ :: w :: rest) (v.unrecognized (.out_of_range "stoull"))
  | noNumber {v : Var} {w : String} (rest : List String) (h : v.type = .unsigned)
      (hw : stoull w = .error .invalid_argument) :
    Halts (v.opt_name_ :: w :: rest) (v.unrecognized (quoted rest))

/-- The arguments are these settings, one behind the other, up to their end or a stop. -/
inductive Parses : List String → List Setting → Option Halt → Prop
  | done : Parses [] [] none
  | halt {args : List String} {e : Halt} (h : Halts args e) : Parses args [] (some e)
  | setting {v : Var} {val : v.type.denote} {ws rest : List String} {l : List Setting} {o : Option Halt}
      (h : Spells v.type val ws) (hrest : Parses rest l o) :
    Parses (v.opt_name_ :: (ws ++ rest)) (⟨v, val⟩ :: l) o

/-- Every option has the value of its last setting, or its default. -/
structure Assigned (l : List Setting) (data : (v : Var) → v.type.denote) : Prop where
  last : ∀ l₁ v val l₂, l = l₁ ++ ⟨v, val⟩ :: l₂ → (∀ s ∈ l₂, s.var ≠ v) → data v = val
  unset : ∀ v, (∀ s ∈ l, s.var ≠ v) → data v = v.default_value

def assign (l : List Setting) (data : (v : Var) → v.type.denote) : (v : Var) → v.type.denote :=
  l.foldl (fun data s ↦ Function.update data s.var s.value) data

section

variable {l l₁ l₂ : List Setting} {data : (v : Var) → v.type.denote} {v : Var}

theorem assign_cons (s : Setting) (l : List Setting) (data : (v : Var) → v.type.denote) :
    assign (s :: l) data = assign l (Function.update data s.var s.value) := rfl

theorem assign_append (l₁ l₂ : List Setting) (data : (v : Var) → v.type.denote) :
    assign (l₁ ++ l₂) data = assign l₂ (assign l₁ data) :=
  List.foldl_append

theorem assign_of_unset (h : ∀ s ∈ l, s.var ≠ v) : assign l data v = data v := by
  induction l generalizing data with
  | nil => rfl
  | cons s l ih =>
    have hs := h s List.mem_cons_self
    rw [assign_cons, ih fun s' hs' ↦ h s' (List.mem_cons_of_mem _ hs')]
    exact Function.update_of_ne hs.symm ..

theorem assigned_assign (l : List Setting) : Assigned l (assign l Var.default_value) where
  last l₁ v val l₂ hl hv := by
    subst hl
    rw [assign_append, assign_cons, assign_of_unset hv]
    exact Function.update_self ..
  unset v hv := assign_of_unset hv

theorem assign_agreeing {target : (v : Var) → v.type.denote} (h : ∀ s ∈ l, s.value = target s.var)
    (hv : data v = target v ∨ ∃ s ∈ l, s.var = v) : assign l data v = target v := by
  induction l generalizing data with
  | nil =>
    rcases hv with hv | ⟨s, hs, -⟩
    · exact hv
    · cases hs
  | cons s l ih =>
    rw [assign_cons]
    refine ih (fun s' hs' ↦ h s' (List.mem_cons_of_mem _ hs')) ?_
    by_cases hsv : s.var = v
    · left
      subst hsv
      rw [Function.update_self]
      exact h s List.mem_cons_self
    · rw [Function.update_of_ne (Ne.symm hsv)]
      rcases hv with hv | ⟨s', hs', hv⟩
      · exact .inl hv
      · rcases List.mem_cons.mp hs' with rfl | hs'
        · exact absurd hv hsv
        · exact .inr ⟨s', hs', hv⟩

end

section

variable {argv : List String} {p : Parser} {args rest ws : List String} {v : Var}

theorem Var.ne_help (v : Var) : "-help" ≠ v.opt_name_ := by
  cases v <;> decide

theorem parseNext_of_ok {q : Parser} {val : v.type.denote} (h : argv.drop p.cur_arg = v.opt_name_ :: args)
    (harg : argument p.pass v.type args = .ok val q) :
    (parseNext argv).run p = .ok () { q with data_ := Function.update q.data_ v val } := by
  rw [run_parseNext h, if_neg v.ne_help, Var.named_opt_name]
  dsimp only
  rw [harg]

theorem parseNext_of_error {q : Parser} {e : Halt} (h : argv.drop p.cur_arg = v.opt_name_ :: args)
    (harg : argument p.pass v.type args = .error e q) :
    (parseNext argv).run p = .error (v.unrecognized e) q := by
  rw [run_parseNext h, if_neg v.ne_help, Var.named_opt_name]
  dsimp only
  rw [harg]

theorem argument_spells {T : Ty} {val : T.denote} (h : Spells T val ws) (p : Parser) (rest : List String) :
    ∃ q, argument p T (ws ++ rest) = .ok val q ∧ q.data_ = p.data_ ∧ q.cur_arg = p.cur_arg + ws.length := by
  cases h with
  | bool => exact ⟨p, rfl, rfl, rfl⟩
  | unsigned h => exact ⟨p.pass, by simp only [List.cons_append, argument, h], rfl, rfl⟩
  | charPtr w => exact ⟨p.pass, rfl, rfl, rfl⟩

theorem parseNext_setting {val : v.type.denote} (hs : Spells v.type val ws)
    (h : argv.drop p.cur_arg = v.opt_name_ :: (ws ++ rest)) :
    ∃ q, (parseNext argv).run p = .ok () q ∧ argv.drop q.cur_arg = rest ∧
      q.data_ = Function.update p.data_ v val := by
  obtain ⟨q, harg, hdata, hcur⟩ := argument_spells hs p.pass rest
  refine ⟨_, parseNext_of_ok h harg, ?_, congrArg (Function.update · v val) hdata⟩
  have hnext := drop_succ h
  rw [← p.pass_cur_arg] at hnext
  change argv.drop q.cur_arg = rest
  rw [hcur, ← List.drop_drop, hnext, List.drop_left]

theorem argument_missing {T : Ty} (h : T ≠ .bool) (p : Parser) :
    argument p T [] = .error (.invalid_argument "the required option is not specified") p := by
  cases T with
  | bool => exact absurd rfl h
  | unsigned => rfl
  | charPtr => rfl

theorem argument_range {T : Ty} {w : String} (h : T = .unsigned) (hw : stoull w = .error .out_of_range)
    (p : Parser) : argument p T (w :: rest) = .error (.out_of_range "stoull") p.pass := by
  subst h
  simp only [argument, hw]

theorem argument_noNumber {T : Ty} {w : String} (h : T = .unsigned)
    (hw : stoull w = .error .invalid_argument) (p : Parser) :
    argument p T (w :: rest) = .error (quoted rest) p.pass := by
  subst h
  simp only [argument, hw]

theorem parseNext_halts {e : Halt} (hs : Halts args e) (h : argv.drop p.cur_arg = args) :
    ∃ q, (parseNext argv).run p = .error e q ∧ q.data_ = p.data_ := by
  cases hs with
  | help rest => exact ⟨p, by rw [run_parseNext h, if_pos rfl], rfl⟩
  | unknown rest hhelp hn => exact ⟨p, by rw [run_parseNext h, if_neg hhelp, hn], rfl⟩
  | missing hT => exact ⟨_, parseNext_of_error h (argument_missing hT _), rfl⟩
  | range rest hT hw => exact ⟨_, parseNext_of_error h (argument_range hT hw _), rfl⟩
  | noNumber rest hT hw => exact ⟨_, parseNext_of_error h (argument_noNumber hT hw _), rfl⟩

theorem spells_or_halts (v : Var) (args : List String) :
    (∃ val ws rest, args = ws ++ rest ∧ Spells v.type val ws) ∨ ∃ e, Halts (v.opt_name_ :: args) e := by
  rcases argument_cases .start v.type args with ⟨hT, -, -⟩ | ⟨hT, rfl, -⟩ | ⟨hT, w, rest, rfl, -, -⟩ |
    ⟨hT, w, rest, rfl, n, hn, -, -⟩ | ⟨hT, w, rest, rfl, hw, -⟩ | ⟨hT, w, rest, rfl, hw, -⟩
  · refine .inl ?_
    rw [hT]
    exact ⟨true, [], args, rfl, .bool⟩
  · exact .inr ⟨_, .missing hT⟩
  · refine .inl ?_
    rw [hT]
    exact ⟨some w, [w], rest, rfl, .charPtr w⟩
  · refine .inl ?_
    rw [hT]
    exact ⟨n, [w], rest, rfl, .unsigned hn⟩
  · exact .inr ⟨_, .range rest hT hw⟩
  · exact .inr ⟨_, .noNumber rest hT hw⟩

theorem exists_parses (args : List String) : ∃ l o, Parses args l o := by
  induction hn : args.length using Nat.strong_induction_on generalizing args with
  | _ n ih =>
    cases args with
    | nil => exact ⟨[], none, .done⟩
    | cons name args =>
      by_cases hhelp : "-help" = name
      · subst hhelp
        exact ⟨[], _, .halt (.help args)⟩
      · cases hnamed : Var.named name with
        | none => exact ⟨[], _, .halt (.unknown args hhelp hnamed)⟩
        | some v =>
          obtain rfl := Var.opt_name_of_named hnamed
          rcases spells_or_halts v args with ⟨val, ws, rest, rfl, hs⟩ | ⟨e, he⟩
          · have hlt : rest.length < n := by
              rw [← hn, List.length_cons, List.length_append]
              omega
            obtain ⟨l, o, hrest⟩ := ih _ hlt rest rfl
            exact ⟨_, o, .setting hs hrest⟩
          · exact ⟨[], _, .halt he⟩

theorem parseAll_parses {l : List Setting} {o : Option Halt} (h : Parses args l o)
    (hargs : argv.drop p.cur_arg = args) : ∃ q, q.data_ = assign l p.data_ ∧ ∀ fuel, args.length < fuel →
      (parseAll argv fuel).run p = o.elim (.ok () q) fun e ↦ .error e q := by
  induction h generalizing p with
  | done =>
    refine ⟨p, rfl, fun fuel hfuel ↦ ?_⟩
    obtain ⟨fuel, rfl⟩ := Nat.exists_eq_succ_of_ne_zero (Nat.ne_zero_of_lt hfuel)
    have hge := List.drop_eq_nil_iff.mp hargs
    rw [parseAll, run_bind_of_ok (EStateM.run_get p), if_neg (not_lt.mpr hge)]
    rfl
  | @halt args e h =>
    obtain ⟨q, hrun, hdata⟩ := parseNext_halts h hargs
    refine ⟨q, hdata, fun fuel hfuel ↦ ?_⟩
    obtain ⟨fuel, rfl⟩ := Nat.exists_eq_succ_of_ne_zero (Nat.ne_zero_of_lt hfuel)
    cases args with
    | nil => cases h
    | cons name args =>
      rw [run_parseAll_of_drop hargs, run_bind_of_error hrun]
      rfl
  | setting h hrest ih =>
    obtain ⟨q, hrun, hdrop, hdata⟩ := parseNext_setting h hargs
    obtain ⟨q', hdata', hloop⟩ := ih hdrop
    refine ⟨q', ?_, fun fuel hfuel ↦ ?_⟩
    · rw [hdata', hdata]
      rfl
    · obtain ⟨fuel, rfl⟩ := Nat.exists_eq_succ_of_ne_zero (Nat.ne_zero_of_lt hfuel)
      rw [run_parseAll_of_drop hargs, run_bind_of_ok hrun]
      refine hloop fuel ?_
      rw [List.length_cons, List.length_append] at hfuel
      omega

end

theorem run_of_parses {argv : List String} {l : List Setting} {o : Option Halt} (h : Parses argv.tail l o) :
    ∃ p, p.data_ = assign l Var.default_value ∧ ∀ fuel, argv.length < fuel →
      ParseOptions fuel argv = o.elim (.ok () p) fun e ↦ .error e p := by
  have hstart : argv.drop Parser.start.cur_arg = argv.tail := List.drop_one
  obtain ⟨p, hdata, hrun⟩ := parseAll_parses h hstart
  refine ⟨p, hdata, fun fuel hfuel ↦ hrun fuel ?_⟩
  rw [List.length_tail]
  omega

/-- What `ParseOptions` accepts and does: the arguments behind the program's name are settings, the last
of an option counts, and what stops them is what it throws. -/
theorem ParseOptions_parses (argv : List String) : (∃ l o, Parses argv.tail l o) ∧
    ∀ l o, Parses argv.tail l o → ∃ p, Assigned l p.data_ ∧ ∀ fuel, argv.length < fuel →
      ParseOptions fuel argv = o.elim (.ok () p) fun e ↦ .error e p := by
  refine ⟨exists_parses _, fun l o h ↦ ?_⟩
  obtain ⟨p, hdata, hrun⟩ := run_of_parses h
  refine ⟨p, ?_, hrun⟩
  rw [hdata]
  exact assigned_assign l

/-- `-mem-pages 64 -jit -mem-pages 12`: the second size counts. -/
theorem ParseOptions_parses_twice :
    ∃ l p, Parses ["-mem-pages", "64", "-jit", "-mem-pages", "12"] l none ∧ p.data_ .mem_pages = 12 ∧
      p.data_ .jit = true ∧ p.data_ .cache_size = 256 ∧
      ParseOptions 7 ["sim", "-mem-pages", "64", "-jit", "-mem-pages", "12"] = .ok () p := by
  have h : Parses ["-mem-pages", "64", "-jit", "-mem-pages", "12"]
      [⟨.mem_pages, 64⟩, ⟨.jit, true⟩, ⟨.mem_pages, 12⟩] none := by
    refine .setting (v := .mem_pages) (.unsigned (w := "64") (by decide)) ?_
    refine .setting (v := .jit) .bool ?_
    exact .setting (v := .mem_pages) (.unsigned (w := "12") (by decide)) .done
  obtain ⟨-, hall⟩ := ParseOptions_parses ["sim", "-mem-pages", "64", "-jit", "-mem-pages", "12"]
  obtain ⟨p, hp, hrun⟩ := hall _ _ h
  refine ⟨_, p, h, ?_, ?_, ?_, hrun 7 (by decide)⟩
  · exact hp.last [⟨.mem_pages, 64⟩, ⟨.jit, true⟩] .mem_pages 12 [] rfl (by simp)
  · exact hp.last [⟨.mem_pages, 64⟩] .jit true [⟨.mem_pages, 12⟩] rfl (by simp)
  · exact hp.unset .cache_size (by simp)

/-- The arguments behind the name of an option that ask for a value; a flag that is off and a name that
is not given are not asked for. -/
def spell : (T : Ty) → T.denote → Option (List String)
  | .bool, b => if b then some [] else none
  | .unsigned, n => some [Nat.repr n.toNat]
  | .charPtr, name => name.map ([·])

/-- The arguments that ask for the value that `data` has for the option. -/
def Var.ask (data : (v : Var) → v.type.denote) (v : Var) : List String :=
  (spell v.type (data v)).elim [] (v.opt_name_ :: ·)

theorem sign_of_isDigit {c : Char} (h : c.isDigit) (cs : List Char) : sign (c :: cs) = (false, c :: cs) := by
  rw [sign]
  · rintro cs' h'
    cases h'
    exact absurd h (by decide)
  · rintro cs' h'
    cases h'
    exact absurd h (by decide)

theorem isspace_of_isDigit {c : Char} (h : c.isDigit) : isspace c = false := by
  have hlow : '0' ≤ c := (Bool.and_eq_true_iff.mp h).1 |> of_decide_eq_true
  by_contra hspace
  rw [Bool.not_eq_false, isspace, Bool.or_eq_true, Bool.and_eq_true, decide_eq_true_eq, decide_eq_true_eq,
    decide_eq_true_eq] at hspace
  rcases hspace with rfl | ⟨-, hhigh⟩
  · exact absurd h (by decide)
  · exact absurd (Char.le_trans hlow hhigh) (by decide)

theorem stoull_repr (n : U64) : stoull (Nat.repr n.toNat) = .ok n := by
  have hdigit : ∀ c ∈ Nat.toDigits 10 n.toNat, c.isDigit := fun c ↦
    Nat.isDigit_of_mem_toDigits (by decide) (by decide)
  have hvalue := @Nat.ofDigitChars_ten_toDigits n.toNat
  rw [Nat.ofDigitChars_eq_foldl] at hvalue
  obtain ⟨c, cs, hcs⟩ := List.exists_cons_of_ne_nil (@Nat.toDigits_ne_nil n.toNat 10)
  rw [hcs] at hdigit hvalue
  have hc := hdigit c List.mem_cons_self
  have hall : (c :: cs).takeWhile Char.isDigit = c :: cs := List.takeWhile_eq_self_iff.mpr hdigit
  have hskip : (c :: cs).dropWhile isspace = c :: cs :=
    List.dropWhile_cons_of_neg (by rw [isspace_of_isDigit hc]; nofun)
  rw [stoull, Nat.toList_repr, hcs, hskip, sign_of_isDigit hc]
  dsimp only
  rw [hall, if_neg (List.cons_ne_nil c cs), hvalue, if_neg (not_le.mpr n.isLt), if_neg (by decide),
    BitVec.ofNat_toNat, BitVec.setWidth_eq]

theorem spells_of_spell {T : Ty} {val : T.denote} {ws : List String} (h : spell T val = some ws) :
    Spells T val ws := by
  cases T with
  | bool =>
    cases val with
    | false => cases h
    | true =>
      cases h
      exact .bool
  | unsigned =>
    cases h
    exact .unsigned (stoull_repr val)
  | charPtr =>
    cases val with
    | none => cases h
    | some w =>
      cases h
      exact .charPtr w

theorem Var.default_of_spell {data : (v : Var) → v.type.denote} {v : Var} (h : spell v.type (data v) = none) :
    data v = v.default_value := by
  cases v <;> simp_all [spell, Var.type, Var.default_value]

theorem parses_ask (data : (v : Var) → v.type.denote) (vs : List Var) :
    ∃ l, Parses (vs.flatMap (Var.ask data)) l none ∧ (∀ s ∈ l, s.value = data s.var) ∧
      ∀ v ∈ vs, data v = v.default_value ∨ ∃ s ∈ l, s.var = v := by
  induction vs with
  | nil => exact ⟨[], .done, by simp, by simp⟩
  | cons v vs ih =>
    obtain ⟨l, hl, hvalue, hvar⟩ := ih
    rw [List.flatMap_cons, Var.ask]
    cases hs : spell v.type (data v) with
    | none =>
      refine ⟨l, hl, hvalue, ?_⟩
      rintro w (_ | ⟨_, hw⟩)
      · exact .inl (Var.default_of_spell hs)
      · exact hvar w hw
    | some ws =>
      refine ⟨⟨v, data v⟩ :: l, .setting (spells_of_spell hs) hl, ?_, ?_⟩
      · rintro s (_ | ⟨_, hs⟩)
        · rfl
        · exact hvalue s hs
      · rintro w (_ | ⟨_, hw⟩)
        · exact .inr ⟨_, List.mem_cons_self, rfl⟩
        · exact (hvar w hw).imp_right fun ⟨s, hs, hsw⟩ ↦ ⟨s, List.mem_cons_of_mem _ hs, hsw⟩

/-- Every configuration has command lines, and they are parsed back to it: whatever order the options
are asked for in, and however often. -/
theorem ParseOptions_ask (data : (v : Var) → v.type.denote) (vs : List Var)
    (hvs : ∀ v, data v ≠ v.default_value → v ∈ vs) (prog : String) :
    ∃ p, p.data_ = data ∧ ∀ fuel, (prog :: vs.flatMap (Var.ask data)).length < fuel →
      ParseOptions fuel (prog :: vs.flatMap (Var.ask data)) = .ok () p := by
  obtain ⟨l, hl, hvalue, hvar⟩ := parses_ask data vs
  have hargs : Parses (prog :: vs.flatMap (Var.ask data)).tail l none := hl
  obtain ⟨p, hdata, hrun⟩ := run_of_parses hargs
  refine ⟨p, ?_, hrun⟩
  funext v
  rw [hdata]
  refine assign_agreeing hvalue ?_
  by_cases hv : data v = v.default_value
  · exact .inl hv.symm
  · exact .inr ((hvar v (hvs v hv)).resolve_left hv)

theorem ParseOptions_ask_elf :
    ∃ p, ParseOptions 7 ["sim", "-elf", "a.out", "-max-insts", "0", "-jit"] = .ok () p ∧
      p.data_ = assign [⟨.jit, true⟩, ⟨.max_insts, 0⟩, ⟨.elf_file, some "a.out"⟩] Var.default_value := by
  let data := assign [⟨.jit, true⟩, ⟨.max_insts, 0⟩, ⟨.elf_file, some "a.out"⟩] Var.default_value
  have hvs : ∀ v, data v ≠ v.default_value → v ∈ [Var.elf_file, .max_insts, .jit] := by
    intro v hv
    cases v
    case elf_file | max_insts | jit => simp
    all_goals exact absurd rfl hv
  have hargv : "sim" :: [Var.elf_file, .max_insts, .jit].flatMap (Var.ask data) =
      ["sim", "-elf", "a.out", "-max-insts", "0", "-jit"] := by decide
  obtain ⟨p, hdata, hrun⟩ := ParseOptions_ask data _ hvs "sim"
  rw [hargv] at hrun
  exact ⟨p, hrun 7 (by decide), hdata⟩

end RiscvSim.Options
