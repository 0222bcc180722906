import RiscvSim.Sim
import RiscvSim.Library.Simulation

namespace RiscvSim.Options

open Results Simulation

/-- How `ParseOptions` is cut short. -/
inductive Halt
  | exit
  | invalid_argument (what : String)
  | out_of_range (what : String)
  | undefinedBehaviour
  | outOfFuel
  deriving DecidableEq, Repr

/-- The types of the options; `size_t` and `uint64_t` are one. -/
inductive Ty
  | bool | unsigned | charPtr

@[reducible] def Ty.denote : Ty → Type
  | .bool => Bool
  | .unsigned => U64
  | .charPtr => Option String

inductive Var
  | verbose | execution_log | log_file | mem_pages | cache_size | itlb_size | dtlb_size
  | jit | jit_threshold | jit_log | max_insts | elf_file
  deriving DecidableEq, Repr

namespace Var

/-- The order of the list, which is the order of the tests. -/
def all : List Var :=
  [verbose, execution_log, log_file, mem_pages, cache_size, itlb_size, dtlb_size,
    jit, jit_threshold, jit_log, max_insts, elf_file]

@[reducible] def type : Var → Ty
  | verbose | execution_log | jit | jit_log => .bool
  | mem_pages | cache_size | itlb_size | dtlb_size | jit_threshold | max_insts => .unsigned
  | log_file | elf_file => .charPtr

def opt_name_ : Var → String
  | verbose => "-verbose"
  | execution_log => "-execution-log"
  | log_file => "-log-file"
  | mem_pages => "-mem-pages"
  | cache_size => "-cache-size"
  | itlb_size => "-itlb-size"
  | dtlb_size => "-dtlb-size"
  | jit => "-jit"
  | jit_threshold => "-jit-threshold"
  | jit_log => "-jit-log"
  | max_insts => "-max-insts"
  | elf_file => "-elf"

def default_value : (v : Var) → v.type.denote
  | verbose | execution_log | jit | jit_log => false
  | log_file | elf_file => none
  | mem_pages => 128#64
  | cache_size | itlb_size | dtlb_size => 256#64
  | jit_threshold => 100#64
  | max_insts => 2000000#64

end Var

/-- The option objects, the current argument, and the arguments passed so far. -/
structure Parser where
  data_ : (v : Var) → v.type.denote
  cur_arg : ℕ
  consumed : List ℕ

def Parser.start : Parser := ⟨Var.default_value, 1, []⟩

abbrev Parse := EStateM Halt Parser

inductive ConversionError
  | invalid_argument | out_of_range
  deriving DecidableEq, Repr

def isspace (c : Char) : Bool := c = ' ' || '\t' ≤ c && c ≤ '\r'

/-- The sign that may stand before the digits. -/
def sign : List Char → Bool × List Char
  | '-' :: cs => (true, cs)
  | '+' :: cs => (false, cs)
  | cs => (false, cs)

/-- `std::stoull` in base ten; what follows the digits is ignored. -/
def stoull (s : String) : Except ConversionError U64 :=
  let (negative, cs) := sign (s.toList.dropWhile isspace)
  let digits := cs.takeWhile Char.isDigit
  let n := digits.foldl (fun n c ↦ 10 * n + (c.toNat - '0'.toNat)) 0
  if digits = [] then .error .invalid_argument
  else if 2 ^ 64 ≤ n then .error .out_of_range
  else .ok (if negative then -BitVec.ofNat 64 n else BitVec.ofNat 64 n)

def arg (argv : List String) (k : ℕ) : Parse String :=
  match argv[k]? with
  | some s => pure s
  | none => throw .undefinedBehaviour

def advance : Parse ℕ :=
  modifyGet fun p ↦ (p.cur_arg, { p with cur_arg := p.cur_arg + 1, consumed := p.cur_arg :: p.consumed })

def required (argv : List String) : Parse Unit := do
  if argv.length ≤ (← get).cur_arg then
    throw (.invalid_argument "the required option is not specified")

def ParseArg (argv : List String) : (T : Ty) → Parse T.denote
  | .bool => return true
  | .unsigned => do
    required argv
    match stoull (← arg argv (← advance)) with
    | .ok n => return n
    -- The index has moved on when the handler uses it.
    | .error .invalid_argument => throw (.invalid_argument (← arg argv (← get).cur_arg))
    | .error .out_of_range => throw (.out_of_range "stoull")
  | .charPtr => do
    required argv
    return some (← arg argv (← advance))

/-- The handler of `parseOption`. -/
def Var.unrecognized (v : Var) : Halt → Halt
  | .invalid_argument what | .out_of_range what =>
    .invalid_argument ("Unrecognized " ++ v.opt_name_ ++ " option: " ++ what)
  | h => h

/-- A `try` block whose handler throws again. -/
def rethrow {α : Type} (handler : Halt → Halt) (x : Parse α) : Parse α := fun p ↦
  match x.run p with
  | .ok a p' => .ok a p'
  | .error h p' => .error (handler h) p'

def parseOption (argv : List String) (v : Var) : Parse Bool := do
  if v.opt_name_ = (← arg argv (← get).cur_arg) then
    let _ ← advance
    let val ← rethrow v.unrecognized (ParseArg argv v.type)
    modify fun p ↦ { p with data_ := Function.update p.data_ v val }
    return true
  else return false

/-- The chain of `else if`s that the list expands to. -/
def parseFirst (argv : List String) : List Var → Parse Bool
  | [] => return false
  | v :: vs => do
    if ← parseOption argv v then return true
    else parseFirst argv vs

def parseNext (argv : List String) : Parse Unit := do
  if "-help" = (← arg argv (← get).cur_arg) then throw .exit
  if !(← parseFirst argv Var.all) then
    throw (.invalid_argument ("Unrecognized argument: " ++ (← arg argv (← get).cur_arg)))

def parseAll (argv : List String) : ℕ → Parse Unit
  | 0 => throw .outOfFuel
  | fuel + 1 => do
    if (← get).cur_arg < argv.length then
      parseNext argv
      parseAll argv fuel

def ParseOptions (fuel : ℕ) (argv : List String) : EStateM.Result Halt Parser Unit :=
  (parseAll argv fuel).run .start

def Parser.options (p : Parser) : Options := ⟨p.data_ .jit, p.data_ .jit_threshold, p.data_ .max_insts⟩

def Var.named (name : String) : Option Var := all.find? (·.opt_name_ = name)

theorem Var.named_opt_name (v : Var) : named v.opt_name_ = some v := by
  cases v <;> rfl

theorem Var.opt_name_of_named {name : String} {v : Var} (h : named name = some v) :
    v.opt_name_ = name := by
  simpa using List.find?_some h

def Parser.pass (p : Parser) : Parser :=
  { p with cur_arg := p.cur_arg + 1, consumed := p.cur_arg :: p.consumed }

@[simp] theorem Parser.pass_cur_arg (p : Parser) : p.pass.cur_arg = p.cur_arg + 1 := rfl

@[simp] theorem Parser.pass_consumed (p : Parser) : p.pass.consumed = p.cur_arg :: p.consumed := rfl

theorem run_advance (p : Parser) : advance.run p = .ok p.cur_arg p.pass := rfl

theorem run_rethrow_ok {α : Type} {handler : Halt → Halt} {x : Parse α} {p q : Parser} {a : α}
    (h : x.run p = .ok a q) : (rethrow handler x).run p = .ok a q := by
  change (match x.run p with | .ok a p' => _ | .error h p' => _) = _
  rw [h]

theorem run_rethrow_error {α : Type} {handler : Halt → Halt} {x : Parse α} {p q : Parser} {e : Halt}
    (h : x.run p = .error e q) : (rethrow handler x).run p = .error (handler e) q := by
  change (match x.run p with | .ok a p' => _ | .error h p' => _) = _
  rw [h]

section

variable {argv : List String} {p : Parser} {name : String} {args : List String}

theorem run_arg_of_drop {k : ℕ} (h : argv.drop k = name :: args) (p : Parser) :
    (arg argv k).run p = .ok name p := by
  have hk : argv[k]? = some name := by
    rw [← List.head?_drop, h, List.head?_cons]
  rw [arg, hk]
  rfl

theorem run_arg_of_drop_nil {k : ℕ} (h : argv.drop k = []) (p : Parser) :
    (arg argv k).run p = .error .undefinedBehaviour p := by
  have hk : argv[k]? = none := by
    rw [← List.head?_drop, h, List.head?_nil]
  rw [arg, hk]
  rfl

theorem drop_succ {k : ℕ} (h : argv.drop k = name :: args) : argv.drop (k + 1) = args := by
  rw [← List.tail_drop, h, List.tail_cons]

theorem run_required (argv : List String) (p : Parser) :
    (required argv).run p = match argv.drop p.cur_arg with
      | [] => .error (.invalid_argument "the required option is not specified") p
      | _ :: _ => .ok () p := by
  rw [required, run_bind_of_ok (EStateM.run_get p)]
  by_cases h : argv.length ≤ p.cur_arg
  · rw [if_pos h, List.drop_eq_nil_of_le h]
    rfl
  · rw [if_neg h, List.drop_eq_getElem_cons (not_le.mp h)]
    rfl

/-- What the handler throws: it quotes the argument behind the value. -/
def quoted : List String → Halt
  | [] => .undefinedBehaviour
  | next :: _ => .invalid_argument next

def argument (p : Parser) : (T : Ty) → List String → EStateM.Result Halt Parser T.denote
  | .bool, _ => .ok true p
  | .unsigned, [] | .charPtr, [] =>
    .error (.invalid_argument "the required option is not specified") p
  | .charPtr, s :: _ => .ok (some s) p.pass
  | .unsigned, value :: rest =>
    match stoull value with
    | .ok n => .ok n p.pass
    | .error .out_of_range => .error (.out_of_range "stoull") p.pass
    | .error .invalid_argument => .error (quoted rest) p.pass

theorem run_ParseArg (h : argv.drop p.cur_arg = args) (T : Ty) :
    (ParseArg argv T).run p = argument p T args := by
  have hreq := run_required argv p
  rw [h] at hreq
  cases T with
  | bool => rfl
  | charPtr =>
    cases args with
    | nil => exact run_bind_of_error hreq
    | cons s rest =>
      rw [ParseArg, run_bind_of_ok hreq, run_bind_of_ok (run_advance p),
        run_bind_of_ok (run_arg_of_drop h _)]
      rfl
  | unsigned =>
    cases args with
    | nil => exact run_bind_of_error hreq
    | cons value rest =>
      rw [ParseArg, run_bind_of_ok hreq, run_bind_of_ok (run_advance p),
        run_bind_of_ok (run_arg_of_drop h _)]
      dsimp only [argument]
      cases stoull value with
      | ok n => rfl
      | error e =>
        cases e with
        | out_of_range => rfl
        | invalid_argument =>
          have hrest : argv.drop p.pass.cur_arg = rest := drop_succ h
          dsimp only
          rw [run_bind_of_ok (EStateM.run_get p.pass)]
          cases rest with
          | nil =>
            rw [run_bind_of_error (run_arg_of_drop_nil hrest _)]
            rfl
          | cons next rest =>
            rw [run_bind_of_ok (run_arg_of_drop hrest _)]
            rfl

theorem run_parseOption (h : argv.drop p.cur_arg = name :: args) (v : Var) :
    (parseOption argv v).run p =
      if v.opt_name_ = name then match argument p.pass v.type args with
        | .ok val q => .ok true { q with data_ := Function.update q.data_ v val }
        | .error e q => .error (v.unrecognized e) q
      else .ok false p := by
  rw [parseOption, run_bind_of_ok (EStateM.run_get p), run_bind_of_ok (run_arg_of_drop h p)]
  by_cases hv : v.opt_name_ = name
  · have harg := run_ParseArg (p := p.pass) (drop_succ h) v.type
    rw [if_pos hv, if_pos hv, run_bind_of_ok (run_advance p), EStateM.run_bind]
    cases hres : argument p.pass v.type args with
    | ok val q =>
      rw [hres] at harg
      rw [run_rethrow_ok harg]
      rfl
    | error e q =>
      rw [hres] at harg
      rw [run_rethrow_error harg]
  · rw [if_neg hv, if_neg hv]
    rfl

theorem run_parseFirst (h : argv.drop p.cur_arg = name :: args) (vs : List Var) :
    (parseFirst argv vs).run p = match vs.find? (·.opt_name_ = name) with
      | none => .ok false p
      | some v => match argument p.pass v.type args with
        | .ok val q => .ok true { q with data_ := Function.update q.data_ v val }
        | .error e q => .error (v.unrecognized e) q := by
  induction vs with
  | nil => rfl
  | cons v vs ih =>
    have hopt := run_parseOption h v
    rw [parseFirst, EStateM.run_bind, hopt]
    by_cases hv : v.opt_name_ = name
    · rw [if_pos hv, List.find?_cons_of_pos (by simpa using hv)]
      dsimp only
      cases argument p.pass v.type args with
      | ok val q => rfl
      | error e q => rfl
    · rw [if_neg hv, List.find?_cons_of_neg (by simpa using hv)]
      exact ih

theorem run_parseNext (h : argv.drop p.cur_arg = name :: args) :
    (parseNext argv).run p =
      if "-help" = name then .error .exit p
      else match Var.named name with
        | none => .error (.invalid_argument ("Unrecognized argument: " ++ name)) p
        | some v => match argument p.pass v.type args with
          | .ok val q => .ok () { q with data_ := Function.update q.data_ v val }
          | .error e q => .error (v.unrecognized e) q := by
  have hfirst := run_parseFirst h Var.all
  rw [parseNext, run_bind_of_ok (EStateM.run_get p), run_bind_of_ok (run_arg_of_drop h p)]
  by_cases hhelp : "-help" = name
  · rw [if_pos hhelp, if_pos hhelp]
    rfl
  · rw [if_neg hhelp, if_neg hhelp]
    change ((parseFirst argv Var.all) >>= _).run p = _
    rw [EStateM.run_bind, hfirst, ← Var.named]
    cases Var.named name with
    | none =>
      change ((get : Parse Parser) >>= _).run p = _
      rw [run_bind_of_ok (EStateM.run_get p), run_bind_of_ok (run_arg_of_drop h p)]
      rfl
    | some v =>
      dsimp only
      cases argument p.pass v.type args with
      | ok val q => rfl
      | error e q => rfl

end

/-- Every value that is no number is followed by itself, as far as the arguments are read. -/
def Echoed : List String → Prop
  | [] => True
  | name :: args =>
    match Var.named name with
    | none => True
    | some v =>
      match v.type, args with
      | .bool, args => Echoed args
      | .charPtr, [] | .unsigned, [] => True
      | .charPtr, _ :: rest => Echoed rest
      | .unsigned, value :: rest =>
        match stoull value with
        | .ok _ => Echoed rest
        | .error .out_of_range => True
        | .error .invalid_argument => rest.head? = some value

/-- The parser stands at a numeric option whose value is not a number. -/
structure NotANumber (argv : List String) (p : Parser) (v : Var) (value : String) : Prop where
  named : argv[p.cur_arg]? = some v.opt_name_
  unsigned : v.type = .unsigned
  follows : argv[p.cur_arg + 1]? = some value
  invalid : stoull value = .error .invalid_argument

/-- Some pass of the loop comes upon that value. -/
def Meets (argv : List String) (p : Parser) (v : Var) (value : String) : Prop :=
  ∃ n q, (iterate (parseNext argv) n).run p = .ok () q ∧ NotANumber argv q v value

/-- No argument is passed twice, and none that is not there. -/
structure Parser.Once (argc : ℕ) (p : Parser) : Prop where
  nodup : p.consumed.Nodup
  below : ∀ k ∈ p.consumed, k < p.cur_arg ∧ k < argc

theorem Parser.Once.pass {argc : ℕ} {p : Parser} (h : p.Once argc) (hlt : p.cur_arg < argc) :
    p.pass.Once argc where
  nodup := List.nodup_cons.mpr ⟨fun hm ↦ lt_irrefl _ (h.below _ hm).1, h.nodup⟩
  below k hk := by
    rcases List.mem_cons.mp hk with rfl | hk
    · exact ⟨Nat.lt_succ_self _, hlt⟩
    · exact ⟨(h.below k hk).1.trans (Nat.lt_succ_self _), (h.below k hk).2⟩

theorem Parser.Once.setData {argc : ℕ} {p : Parser} (h : p.Once argc)
    (data : (v : Var) → v.type.denote) : ({ p with data_ := data } : Parser).Once argc :=
  ⟨h.nodup, h.below⟩

section

variable {argv : List String} {p : Parser} {name : String} {args : List String}

theorem lt_of_drop {k : ℕ} (h : argv.drop k = name :: args) : k < argv.length := by
  by_contra hle
  rw [List.drop_eq_nil_of_le (not_lt.mp hle)] at h
  cases h

theorem getElem?_of_drop {k : ℕ} (h : argv.drop k = name :: args) : argv[k]? = some name := by
  rw [← List.head?_drop, h, List.head?_cons]

/-- The ways in which `ParseArg` can end. -/
inductive Argument (p : Parser) (T : Ty) (args : List String) : Prop
  | bool (hT : T = .bool) (val : T.denote) (h : argument p T args = .ok val p)
  | missing (hT : T ≠ .bool) (hargs : args = [])
      (h : argument p T args =
        .error (.invalid_argument "the required option is not specified") p)
  | charPtr (hT : T = .charPtr) (s : String) (rest : List String) (hargs : args = s :: rest)
      (val : T.denote) (h : argument p T args = .ok val p.pass)
  | number (hT : T = .unsigned) (value : String) (rest : List String) (hargs : args = value :: rest)
      (n : U64) (hn : stoull value = .ok n) (val : T.denote) (h : argument p T args = .ok val p.pass)
  | range (hT : T = .unsigned) (value : String) (rest : List String) (hargs : args = value :: rest)
      (hn : stoull value = .error .out_of_range)
      (h : argument p T args = .error (.out_of_range "stoull") p.pass)
  | invalid (hT : T = .unsigned) (value : String) (rest : List String) (hargs : args = value :: rest)
      (hn : stoull value = .error .invalid_argument)
      (h : argument p T args = .error (quoted rest) p.pass)

theorem argument_cases (p : Parser) (T : Ty) (args : List String) : Argument p T args := by
  cases T with
  | bool => exact .bool rfl true rfl
  | charPtr =>
    cases args with
    | nil => exact .missing nofun rfl rfl
    | cons s rest => exact .charPtr rfl s rest rfl (some s) rfl
  | unsigned =>
    cases args with
    | nil => exact .missing nofun rfl rfl
    | cons value rest =>
      cases hn : stoull value with
      | ok n => exact .number rfl value rest rfl n hn n (by simp only [argument, hn])
      | error e =>
        cases e with
        | out_of_range => exact .range rfl value rest rfl hn (by simp only [argument, hn])
        | invalid_argument => exact .invalid rfl value rest rfl hn (by simp only [argument, hn])

/-- What one pass of the loop can do: stop without a value that is no number, stop at one, or go
on behind the option. -/
inductive Passes (argv : List String) (p : Parser) (name : String) (args : List String) : Prop
  | stop (e : Halt) (q : Parser) (hrun : (parseNext argv).run p = .error e q)
      (hub : e ≠ .undefinedBehaviour) (hfuel : e ≠ .outOfFuel)
      (honce : p.Once argv.length → q.Once argv.length)
      (hnumber : ∀ v value, ¬ NotANumber argv p v value) (hecho : Echoed (name :: args))
  | misread (v : Var) (value : String) (rest : List String) (hargs : args = value :: rest)
      (hmeets : NotANumber argv p v value) (hecho : Echoed (name :: args) ↔ rest.head? = some value)
      (hrun : (parseNext argv).run p = .error (v.unrecognized (quoted rest)) p.pass.pass)
  | next (q : Parser) (rest : List String) (hrun : (parseNext argv).run p = .ok () q)
      (hrest : argv.drop q.cur_arg = rest) (hlen : rest.length ≤ args.length)
      (honce : p.Once argv.length → q.Once argv.length)
      (hnumber : ∀ v value, ¬ NotANumber argv p v value)
      (hecho : Echoed (name :: args) ↔ Echoed rest)

theorem passes (h : argv.drop p.cur_arg = name :: args) : Passes argv p name args := by
  have hrun := run_parseNext h
  have hlt := lt_of_drop h
  have hname := getElem?_of_drop h
  have hargs := drop_succ h
  have hv : ∀ {v value}, NotANumber argv p v value → Var.named name = some v := by
    intro v value hn
    have heq := Option.some.inj (hname.symm.trans hn.named)
    rw [heq, Var.named_opt_name]
  by_cases hhelp : "-help" = name
  · rw [if_pos hhelp] at hrun
    subst hhelp
    exact .stop _ _ hrun nofun nofun id (fun v value hn ↦ nomatch hv hn) trivial
  rw [if_neg hhelp] at hrun
  cases hnamed : Var.named name with
  | none =>
    rw [hnamed] at hrun
    refine .stop _ _ hrun nofun nofun id (fun v value hn ↦ ?_) ?_
    · rw [hv hn] at hnamed
      cases hnamed
    · rw [Echoed, hnamed]
      trivial
  | some v =>
    rw [hnamed] at hrun
    have hnone : ∀ {rest}, args = rest → (∀ value rest', rest = value :: rest' → v.type = .unsigned →
        stoull value ≠ .error .invalid_argument) → ∀ w value, ¬ NotANumber argv p w value := by
      rintro rest rfl hno w value hw
      obtain rfl := Option.some.inj ((hv hw).symm.trans hnamed)
      have hfollows := hw.follows
      rw [← List.head?_drop, hargs] at hfollows
      obtain ⟨rest', rfl⟩ := List.head?_eq_some_iff.mp hfollows
      exact hno value rest' rfl hw.unsigned hw.invalid
    have hpass : ∀ {value rest}, args = value :: rest → p.Once argv.length →
        p.pass.pass.Once argv.length := fun hs hp ↦
      (hp.pass hlt).pass (lt_of_drop (hargs.trans hs))
    rcases argument_cases p.pass v.type args with ⟨hT, val, harg⟩ | ⟨hT, hnil, harg⟩ |
      ⟨hT, s, rest, hs, val, harg⟩ | ⟨hT, value, rest, hs, n, hn, val, harg⟩ |
      ⟨hT, value, rest, hs, hn, harg⟩ | ⟨hT, value, rest, hs, hn, harg⟩
    all_goals dsimp only at hrun; rw [harg] at hrun
    · refine .next _ args hrun hargs le_rfl (fun hp ↦ (hp.pass hlt).setData _) (hnone rfl ?_) ?_
      · intro value rest hr hu
        rw [hT] at hu
        cases hu
      · rw [Echoed, hnamed]
        simp only [hT]
    · refine .stop _ _ hrun nofun nofun (fun hp ↦ hp.pass hlt) (hnone hnil nofun) ?_
      rw [Echoed, hnamed]
      subst hnil
      cases hT' : v.type with
      | bool => exact absurd hT' hT
      | unsigned => simp only [hT']
      | charPtr => simp only [hT']
    · refine .next _ rest hrun (drop_succ (hargs.trans hs)) (hs ▸ Nat.le_succ _)
        (fun hp ↦ (hpass hs hp).setData _) (hnone rfl ?_) ?_
      · intro value rest hr hu
        rw [hT] at hu
        cases hu
      · subst hs
        rw [Echoed, hnamed]
        simp only [hT]
    · refine .next _ rest hrun (drop_succ (hargs.trans hs)) (hs ▸ Nat.le_succ _)
        (fun hp ↦ (hpass hs hp).setData _) (hnone hs ?_) ?_
      · rintro value' rest' ⟨⟩ -
        rw [hn]
        nofun
      · subst hs
        rw [Echoed, hnamed]
        simp only [hT, hn]
    · refine .stop _ _ hrun nofun nofun (hpass hs) (hnone hs ?_) ?_
      · rintro value' rest' ⟨⟩ -
        rw [hn]
        nofun
      · subst hs
        rw [Echoed, hnamed]
        simp only [hT, hn]
    · refine .misread v value rest hs ⟨?_, hT, ?_, hn⟩ ?_ hrun
      · rw [hname, Var.opt_name_of_named hnamed]
      · exact getElem?_of_drop (hargs.trans hs)
      · subst hs
        rw [Echoed, hnamed]
        simp only [hT, hn]

def final : EStateM.Result Halt Parser Unit → Parser
  | .ok _ p | .error _ p => p

/-- The run from `p` on ends as `r`, within `argv`, and an exception it owes to a value that is no
number quotes that value. -/
structure Inside (argv : List String) (p : Parser) (r : EStateM.Result Halt Parser Unit) : Prop where
  defined : ∀ q, r ≠ .error .undefinedBehaviour q
  names : ∀ v value, Meets argv p v value →
    ∃ q, r = .error (v.unrecognized (.invalid_argument value)) q

theorem meets_of_error {e : Halt} {q : Parser} (h : (parseNext argv).run p = .error e q) {v : Var}
    {value : String} (hm : Meets argv p v value) : NotANumber argv p v value := by
  obtain ⟨n, q', hn, hnot⟩ := hm
  cases n with
  | zero =>
    cases hn
    exact hnot
  | succ n =>
    rw [iterate, run_bind_of_error h] at hn
    cases hn

theorem meets_iff_of_ok {q : Parser} (h : (parseNext argv).run p = .ok () q)
    (hnot : ∀ v value, ¬ NotANumber argv p v value) {v : Var} {value : String} :
    Meets argv p v value ↔ Meets argv q v value := by
  constructor
  · rintro ⟨n, q', hn, hm⟩
    cases n with
    | zero =>
      cases hn
      exact absurd hm (hnot v value)
    | succ n => exact ⟨n, q', by rwa [iterate, run_bind_of_ok h] at hn, hm⟩
  · rintro ⟨n, q', hn, hm⟩
    exact ⟨n + 1, q', by rwa [iterate, run_bind_of_ok h], hm⟩

theorem run_parseAll_of_drop (h : argv.drop p.cur_arg = name :: args) (fuel : ℕ) :
    (parseAll argv (fuel + 1)).run p = (parseNext argv >>= fun _ ↦ parseAll argv fuel).run p := by
  rw [parseAll, run_bind_of_ok (EStateM.run_get p), if_pos (lt_of_drop h)]

theorem inside_of_stop {e : Halt} {q : Parser} (h : (parseNext argv).run p = .error e q)
    (hub : e ≠ .undefinedBehaviour) (hnot : ∀ v value, ¬ NotANumber argv p v value) :
    Inside argv p (.error e q) where
  defined q' hq := hub (by cases hq; rfl)
  names v value hm := absurd (meets_of_error h hm) (hnot v value)

theorem inside_iff_of_misread {v : Var} {value : String} {rest : List String}
    (hm : NotANumber argv p v value) {q : Parser}
    (h : (parseNext argv).run p = .error (v.unrecognized (quoted rest)) q) :
    Inside argv p (.error (v.unrecognized (quoted rest)) q) ↔ rest.head? = some value := by
  constructor
  · intro hi
    obtain ⟨q', hq⟩ := hi.names v value ⟨0, p, rfl, hm⟩
    cases rest with
    | nil => exact absurd rfl (hi.defined q)
    | cons next rest =>
      injection hq with hmsg
      injection hmsg with hmsg
      rw [(String.append_right_inj _).mp hmsg, List.head?_cons]
  · intro hhead
    obtain ⟨rest, rfl⟩ := List.head?_eq_some_iff.mp hhead
    refine ⟨nofun, fun w value' hw ↦ ?_⟩
    have hw := meets_of_error h hw
    obtain rfl : v = w := by
      have hname := Option.some.inj (hm.named.symm.trans hw.named)
      have hnamed := Var.named_opt_name v
      rw [hname, Var.named_opt_name] at hnamed
      exact (Option.some.inj hnamed).symm
    obtain rfl := Option.some.inj (hm.follows.symm.trans hw.follows)
    exact ⟨q, rfl⟩

theorem not_meets_of_drop_nil (h : argv.drop p.cur_arg = []) (v : Var) (value : String) :
    ¬ Meets argv p v value := by
  intro hm
  have hrun : (parseNext argv).run p = .error .undefinedBehaviour p := by
    rw [parseNext, run_bind_of_ok (EStateM.run_get p), run_bind_of_error (run_arg_of_drop_nil h p)]
  have hnamed := (meets_of_error hrun hm).named
  rw [← List.head?_drop, h] at hnamed
  cases hnamed

variable (argv) in
/-- Induction on the arguments that are left. -/
theorem parseAll_inside (args : List String) (p : Parser) (hargs : argv.drop p.cur_arg = args)
    (hp : p.Once argv.length) : ∃ r, (∀ fuel, args.length < fuel → (parseAll argv fuel).run p = r) ∧
      (∀ q, r ≠ .error .outOfFuel q) ∧ (final r).Once argv.length ∧
      (Inside argv p r ↔ Echoed args) := by
  induction hn : args.length using Nat.strong_induction_on generalizing args p with
  | _ n ih =>
    cases args with
    | nil =>
      have hge := List.drop_eq_nil_iff.mp hargs
      refine ⟨.ok () p, fun fuel hfuel ↦ ?_, nofun, hp, iff_of_true ⟨nofun, fun v value hm ↦ ?_⟩ trivial⟩
      · obtain ⟨fuel, rfl⟩ := Nat.exists_eq_succ_of_ne_zero (Nat.ne_zero_of_lt hfuel)
        rw [parseAll, run_bind_of_ok (EStateM.run_get p), if_neg (not_lt.mpr hge)]
        rfl
      · exact absurd hm (not_meets_of_drop_nil hargs v value)
    | cons name args =>
      have hloop : ∀ fuel, n < fuel → ∃ fuel', n ≤ fuel' ∧
          (parseAll argv fuel).run p = (parseNext argv >>= fun _ ↦ parseAll argv fuel').run p := by
        intro fuel hfuel
        obtain ⟨fuel', rfl⟩ := Nat.exists_eq_succ_of_ne_zero (Nat.ne_zero_of_lt hfuel)
        exact ⟨fuel', Nat.lt_succ_iff.mp hfuel, run_parseAll_of_drop hargs fuel'⟩
      rcases passes hargs with ⟨e, q, hrun, hub, hfuel, honce, hnumber, hecho⟩ |
        ⟨v, value, rest, hs, hm, hecho, hrun⟩ | ⟨q, rest, hrun, hrest, hlen, honce, hnumber, hecho⟩
      · refine ⟨.error e q, fun fuel hlt ↦ ?_, ?_, honce hp,
          iff_of_true (inside_of_stop hrun hub hnumber) hecho⟩
        · obtain ⟨fuel', -, hloop⟩ := hloop fuel hlt
          rw [hloop, run_bind_of_error hrun]
        · intro q' hq
          cases hq
          exact hfuel rfl
      · refine ⟨.error (v.unrecognized (quoted rest)) p.pass.pass, fun fuel hlt ↦ ?_, ?_, ?_,
          (inside_iff_of_misread hm hrun).trans hecho.symm⟩
        · obtain ⟨fuel', -, hloop⟩ := hloop fuel hlt
          rw [hloop, run_bind_of_error hrun]
        · cases rest with
          | nil => nofun
          | cons next rest => nofun
        · exact (hp.pass (lt_of_drop hargs)).pass (lt_of_drop ((drop_succ hargs).trans hs))
      · have hshort : rest.length < n := by
          rw [← hn, List.length_cons]
          exact Nat.lt_succ_of_le hlen
        obtain ⟨r, hr, hfuel, hfinal, hinside⟩ := ih _ hshort rest q hrest (honce hp) rfl
        refine ⟨r, fun fuel hlt ↦ ?_, hfuel, hfinal, Iff.trans ?_ (hinside.trans hecho.symm)⟩
        · obtain ⟨fuel', hle, hloop⟩ := hloop fuel hlt
          rw [hloop, run_bind_of_ok hrun, hr fuel' (hshort.trans_le hle)]
        · constructor
          · intro hi
            exact ⟨hi.defined, fun v value hm ↦ hi.names v value ((meets_iff_of_ok hrun hnumber).mpr hm)⟩
          · intro hi
            exact ⟨hi.defined, fun v value hm ↦ hi.names v value ((meets_iff_of_ok hrun hnumber).mp hm)⟩

end

/-- `ParseOptions` ends, passes each argument at most once and none that is not there, never uses
one that is not there as a string, and names each value that is not a number. -/
def StaysInside (argv : List String) : Prop :=
  ∃ r, (∀ fuel, argv.length < fuel → ParseOptions fuel argv = r) ∧
    (∀ p, r ≠ .error .outOfFuel p) ∧ (final r).Once argv.length ∧ Inside argv .start r

/-- Option parsing stays inside `argv` just when each value that is not a number is followed by
itself: the handler quotes the argument behind it. -/
theorem staysInside_iff (argv : List String) : StaysInside argv ↔ Echoed argv.tail := by
  obtain ⟨r, hr, hfuel, hfinal, hinside⟩ := parseAll_inside argv argv.tail .start
    (List.drop_one ..) ⟨List.nodup_nil, nofun⟩
  have hle : argv.tail.length ≤ argv.length := by
    rw [List.length_tail]
    exact Nat.sub_le ..
  constructor
  · rintro ⟨r', hr', -, -, hi⟩
    have heq : r' = r := (hr' _ (Nat.lt_succ_self _)).symm.trans (hr _ (Nat.lt_succ_of_le hle))
    exact hinside.mp (heq ▸ hi)
  · intro hecho
    exact ⟨r, fun fuel hlt ↦ hr fuel (hle.trans_lt hlt), hfuel, hfinal, hinside.mpr hecho⟩

/-- A value at the end of `argv` that is not a number. -/
theorem badValue_undefined : ¬ ∀ argv : List String, 1 ≤ argv.length → StaysInside argv := by
  intro h
  obtain ⟨r, hr, -, -, hi⟩ := h ["sim", "-mem-pages", "many"] (by decide)
  have hrun := hr 4 (by decide)
  exact hi.defined _ (hrun.symm.trans rfl)

end RiscvSim.Options
