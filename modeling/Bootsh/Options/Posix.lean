import Bootsh.Lib.Run
import Bootsh.Options.Frame
import Bootsh.Var.Return

/-!
`getopts` against a reference that only has the index of the next argument and the letters that
are left of the one before it, over whole sequences of calls.
-/
namespace Bootsh.Options

/-! ### The reference -/

/-- The letters of an option string without its leading colon, each with whether it takes an
argument. -/
def optLetters : Text → List (Char × Bool)
  | [] => []
  | d :: ':' :: q => (d, true) :: optLetters q
  | d :: q => (d, false) :: optLetters q

/-- The index of the next argument, and the letters that are left of the one before it. -/
structure Position where
  next : ℕ
  rest : Text
  deriving DecidableEq, Repr

inductive Found
  | option (c : Char)
  | argument (c : Char) (arg : Text)
  | unknown (c : Char)
  | missing (c : Char)
  | done
  deriving DecidableEq, Repr

def silent (optstr : Text) : Bool := optstr.head? = some ':'

section
variable (optstr : Text) (args : List Text)

def findLetter (next : ℕ) (c : Char) (rest : Text) : Found × Position :=
  match (optLetters (if silent optstr then optstr.tail else optstr)).lookup c with
  | none => (.unknown c, ⟨next, rest⟩)
  | some false => (.option c, ⟨next, rest⟩)
  | some true =>
    match rest, args[next]? with
    | [], none => (.missing c, ⟨next, []⟩)
    | [], some arg => (.argument c arg, ⟨next + 1, []⟩)
    | rest, _ => (.argument c rest, ⟨next, []⟩)

def findOption (pos : Position) : Found × Position :=
  match pos.rest with
  | c :: rest => findLetter optstr args pos.next c rest
  | [] =>
    match args[pos.next]? with
    | some ['-', '-'] => (.done, ⟨pos.next + 1, []⟩)
    | some ('-' :: c :: rest) => findLetter optstr args (pos.next + 1) c rest
    | _ => (.done, ⟨pos.next, []⟩)

end

/-- What the option variable gets. -/
def Found.letter (silent : Bool) : Found → Char
  | .option c | .argument c _ => c
  | .unknown _ | .done => '?'
  | .missing _ => if silent then ':' else '?'

/-- What the standard says of `OPTARG`: unset where there is no option, or one that has no
argument. -/
def standardOptarg (silent : Bool) (_old : Option Text) : Found → Option Text
  | .argument _ arg => some arg
  | .unknown c | .missing c => if silent then some [c] else none
  | .option _ | .done => none

/-- `OPTARG` is empty for an option that has no argument, and stays at the end. -/
def keptOptarg (silent : Bool) (old : Option Text) : Found → Option Text
  | .argument _ arg => some arg
  | .unknown c | .missing c => if silent then some [c] else none
  | .option _ => some []
  | .done => old

structure Values where
  optvar : Option Text
  optarg : Option Text
  optind : Option Text
  deriving DecidableEq, Repr

/-- A call of `getopts`, or `OPTIND=1`. -/
inductive Turn
  | call
  | restart
  deriving DecidableEq, Repr

structure Reference where
  pos : Position
  values : Values
  deriving DecidableEq, Repr

/-- One turn of the reference, for a rule about `OPTARG`: whether the options have come to an
end, and the values of the variables. -/
def Reference.turn (rule : Bool → Option Text → Found → Option Text) (optstr : Text)
    (args : List Text) (r : Reference) :
    Turn → (Option (Except Text Bool) × Values) × Reference
  | .call =>
    let (found, pos) := findOption optstr args r.pos
    let values := ⟨some [found.letter (silent optstr)],
      rule (silent optstr) r.values.optarg found, some (fmtInt (pos.next + 1))⟩
    ((some (.ok (found = .done)), values), ⟨pos, values⟩)
  | .restart =>
    let values := { r.values with optind := some "1".toList }
    ((none, values), ⟨⟨0, []⟩, values⟩)

/-! ### The calls of the builtin -/

namespace State

def value (st : State) (name : Text) : Option Text := (lookupvar name st.vars).1

def readonly (st : State) (name : Text) : Bool := (st.vars.entry name).readonly

def values (optvar : Text) (st : State) : Values :=
  ⟨st.value optvar, st.value "OPTARG".toList, st.value "OPTIND".toList⟩

/-- The arguments of the builtin, if there are none the parameters. -/
def optbase (args : List Text) (st : State) : List Text :=
  if args = [] then st.shellparam.p else args

def turn (optstr optvar : Text) (args : List Text) (st : State) :
    Turn → (Option (Except Text Bool) × Values) × State
  | .call =>
    let (done, st) := getoptscmd optstr optvar args st
    ((some done, st.values optvar), st)
  | .restart =>
    let (_, st) := st.varOp (.setvareq "OPTIND=1".toList VFlags.zero)
    ((none, st.values optvar), st)

/-- Where a call stands. -/
def position (args : List Text) (st : State) : Position :=
  let optbase := st.optbase args
  let sp := (fitOptind (optbase.length + 1) st).shellparam
  ⟨sp.optind.toNat - 1, currentWord optbase sp.optind.toNat sp.optoff⟩

end State

/-- The number of the parameters is right, and `optind` is one that the hook or `getopts` has
put there. -/
structure Shparam.Valid (sp : Shparam) : Prop where
  nparam : sp.nparam = sp.p.length
  optind : sp.optind = -1 ∨ 1 ≤ sp.optind

/-! ### One scan -/

theorem findOpt_letters (c : Char) (q : Text) :
    (findOpt c q).map (fun q => decide (q.head? = some ':')) = (optLetters q).lookup c := by
  induction q using optLetters.induct with
  | case1 => rfl
  | case2 d q ih =>
    rw [findOpt, optLetters, List.lookup_cons]
    by_cases hd : d = c
    · subst hd
      simp
    · rw [if_neg hd, show (c == d) = false by simpa using Ne.symm hd]
      exact ih
  | case3 d q hq ih =>
    have hhead : q.head? ≠ some ':' := by
      intro hhead
      obtain ⟨q', rfl⟩ := List.head?_eq_some_iff.mp hhead
      exact hq q' rfl
    have hopt : findOpt c (d :: q) = if d = c then some q else findOpt c q := by
      rw [findOpt]
      exact hq
    rw [hopt, optLetters.eq_3 d q hq, List.lookup_cons]
    by_cases hd : d = c
    · subst hd
      simp [hhead]
    · rw [if_neg hd, show (c == d) = false by simpa using Ne.symm hd, ← ih]

/-- What `getopts` does to `OPTARG`. -/
def Found.store (silent : Bool) : Found → Option (Option Text)
  | .argument _ arg => some (some arg)
  | .unknown c | .missing c => some (if silent then some [c] else none)
  | .option _ => some (some [])
  | .done => none

/-- The scan of the code says what the reference has found. -/
structure Agrees (silent : Bool) (o : Scan) (r : Found × Position) : Prop where
  optnext : o.optnext = r.2.next
  p : o.p.getD [] = r.2.rest
  c : o.c = r.1.letter silent
  done : o.done = decide (r.1 = .done)
  optarg : o.optarg = r.1.store silent

section
variable {optstr : Text} {args : List Text}

theorem scanOpt_agrees (next : ℕ) (c : Char) (rest : Text) :
    Agrees (silent optstr) (scanOpt optstr args next c rest)
      (findLetter optstr args next c rest) := by
  unfold scanOpt findLetter silent
  rw [← findOpt_letters]
  by_cases hs : optstr.head? = some ':'
  all_goals
    simp only [hs, if_true, if_false, decide_true, decide_false, Bool.false_eq_true]
    split
    case h_1 hopt =>
      rw [hopt]
      exact ⟨rfl, rfl, rfl, rfl, rfl⟩
    case h_2 q hopt =>
      rw [hopt]
      dsimp only [Option.map_some, List.head?_cons, decide_true]
      cases rest with
      | nil => cases args[next]? <;> exact ⟨rfl, rfl, rfl, rfl, rfl⟩
      | cons d rest => exact ⟨rfl, rfl, rfl, rfl, rfl⟩
    case h_3 q hq hopt =>
      have hhead : q.head? ≠ some ':' := by
        intro hhead
        obtain ⟨q', rfl⟩ := List.head?_eq_some_iff.mp hhead
        exact hq q' rfl
      rw [hopt]
      simp only [Option.map_some, hhead, decide_false]
      exact ⟨rfl, rfl, rfl, rfl, rfl⟩

theorem nextOpt_agrees {ind : ℕ} (off : ℤ) (hind : 1 ≤ ind) :
    Agrees (silent optstr) (nextOpt optstr args ind off)
      (findOption optstr args ⟨ind - 1, currentWord args ind off⟩) := by
  unfold nextOpt findOption
  cases currentWord args ind off with
  | cons c p => exact scanOpt_agrees (ind - 1) c p
  | nil =>
    dsimp only
    rw [show ind - 1 + 1 = ind by omega]
    generalize args[ind - 1]? = arg
    rcases option_word arg with rfl | ⟨c, p, rfl, hnot⟩ | ⟨hnot, hno⟩
    · exact ⟨rfl, rfl, rfl, rfl, rfl⟩
    · simp only
      exact scanOpt_agrees ind _ _
    · simp only
      exact ⟨rfl, rfl, rfl, rfl, rfl⟩

/-- The next argument is one of the list, or there is none. -/
theorem findLetter_le {next : ℕ} (h : next ≤ args.length) (c : Char) (rest : Text) :
    (findLetter optstr args next c rest).2.next ≤ args.length := by
  unfold findLetter
  split
  · exact h
  · exact h
  · split
    · exact h
    · rename_i harg
      exact (List.getElem?_eq_some_iff.mp harg).1
    · exact h

theorem findOption_le {pos : Position} (h : pos.next ≤ args.length) :
    (findOption optstr args pos).2.next ≤ args.length := by
  unfold findOption
  split
  · exact findLetter_le h _ _
  · split
    · rename_i harg
      exact (List.getElem?_eq_some_iff.mp harg).1
    · rename_i harg
      exact findLetter_le (List.getElem?_eq_some_iff.mp harg).1 _ _
    · exact h

/-- Where the next call of `getopts` stands. -/
theorem nextOpt_position {ind : ℕ} (off : ℤ) (hind : 1 ≤ ind) :
    currentWord args ((nextOpt optstr args ind off).optnext + 1)
      (optoffOf args (nextOpt optstr args ind off)) =
        (findOption optstr args ⟨ind - 1, currentWord args ind off⟩).2.rest := by
  rw [← (nextOpt_agrees off hind).p]
  cases hp : (nextOpt optstr args ind off).p with
  | some p => exact nextOpt_continues hind hp
  | none =>
    unfold optoffOf
    rw [hp]
    simp [currentWord]

end

/-! ### The variables -/

section
variable {st st' : State} {name : Text} {val : Option Text} {flags : VFlags}

/-- A variable has been given a value, or been unset, and nothing else has changed. -/
structure Stored (st st' : State) (name : Text) (val : Option Text) : Prop where
  shellparam : st'.shellparam = st.shellparam
  value : st'.value name = val
  others : ∀ n ≠ name, st'.value n = st.value n
  readonly : st'.readonly = st.readonly

theorem varOp_eq {op : VarOp} {r : Option Text} {vars : Vars} {sp : Shparam}
    (h : st.vars.step op = (r, vars)) (hcalls : callHooks vars.called st.shellparam = .ok sp) :
    ∃ st', st.varOp op = (r, st') ∧ st'.vars = { vars with called := [] } ∧
      st'.shellparam = sp := by
  obtain rfl := congrArg Prod.fst h
  obtain rfl := congrArg Prod.snd h
  unfold State.varOp State.settle
  rw [hcalls]
  exact ⟨_, rfl, rfl, rfl⟩

/-- An assignment without the hook of `OPTIND`. -/
theorem varOp_stored (hgood : isGoodName name) (hro : st.readonly name = false)
    (hflags : flags.readonly = false) (hunset : flags.unset = false)
    (hhook : name ≠ optindName ∨ flags.nofunc) :
    ∃ st', st.varOp (.setvar name val flags) = (none, st') ∧ Stored st st' name val := by
  let flags' := (if val.isNone then flags ||| VFlags.vunset else flags) ||| VFlags.vnosave
  have hflags' : flags'.readonly = false ∧ flags'.unset = val.isNone ∧
      flags'.nofunc = flags.nofunc := by
    cases val <;> simp [flags', hflags, hunset]
  obtain ⟨vars', hok, hwritten, hcalled⟩ :=
    @Vars.setvareqVal_written name flags' val st.vars hro hflags'.1 hflags'.2.1
  have hset : setvar name val flags st.vars = .ok vars' := by
    rw [setvar, Vars.varName_of_good hgood, if_neg (by simp [hgood])]
    exact hok
  have hstep : st.vars.step (.setvar name val flags) = (none, vars') := by
    rw [Vars.step, hset, orRaise_ok]
  have hnoreset : NoReset vars'.called := by
    rw [hcalled, hflags'.2.2]
    intro c hc
    split at hc
    case isTrue =>
      rw [st.quiet] at hc
      cases hc
    case isFalse hfunc =>
      have hname : name ≠ optindName := hhook.resolve_right hfunc
      cases hfind : st.vars.findvar name with
      | none =>
        rw [hfind, Option.bind_none, Vars.callFunc, st.quiet] at hc
        cases hc
      | some vp =>
        rw [hfind, Option.bind_some, st.hooks.func hfind] at hc
        cases hf : hookOf name with
        | none =>
          rw [hf, Vars.callFunc, st.quiet] at hc
          cases hc
        | some f =>
          rw [hf, Vars.callFunc, st.quiet] at hc
          obtain rfl := List.mem_singleton.1 hc
          rintro rfl
          exact hname (eq_optind_of_hookOf hf)
  obtain ⟨st', hop, hvars, hparam⟩ :=
    varOp_eq hstep (callHooks_noReset hnoreset st.shellparam)
  refine ⟨st', hop, hparam, ?_, ?_, ?_⟩
  · rw [State.value, hvars]
    exact (Vars.lookupvar_called _ _ _).trans hwritten.value
  · intro n hn
    rw [State.value, hvars]
    exact (Vars.lookupvar_called _ _ _).trans (hwritten.others n hn)
  · funext n
    rw [State.readonly, hvars]
    exact hwritten.readonly n

/-- `OPTIND=1` starts again with the first argument. -/
theorem varOp_restart (hro : st.readonly optindName = false) :
    ∃ st', st.varOp (.setvareq "OPTIND=1".toList VFlags.zero) = (none, st') ∧
      st'.shellparam = { st.shellparam with optind := 1, optoff := -1 } ∧
      st'.value optindName = some "1".toList ∧ (∀ n ≠ optindName, st'.value n = st.value n) ∧
      st'.readonly = st.readonly := by
  obtain ⟨vars', hok, hwritten, hcalled⟩ :=
    @Vars.setvareqVal_written optindName VFlags.zero (some "1".toList) st.vars hro rfl rfl
  have hstep : st.vars.step (.setvareq "OPTIND=1".toList VFlags.zero) = (none, vars') := by
    have hset : setvareq "OPTIND=1".toList VFlags.zero st.vars = .ok vars' := hok
    rw [Vars.step, hset, orRaise_ok]
  have hreset : vars'.called = [(.getoptsreset, "1".toList)] := by
    obtain ⟨vp, hfind, -⟩ := st.hooks.fixed (by rw [hookOf_optind]; rfl : (hookOf optindName).isSome)
    rw [hcalled, hfind, Option.bind_some, st.hooks.func hfind, hookOf_optind, if_neg (by decide),
      Vars.callFunc, st.quiet]
    rfl
  obtain ⟨st', hop, hvars, hparam⟩ := varOp_eq hstep (by rw [hreset]; rfl)
  refine ⟨st', hop, hparam, ?_, ?_, ?_⟩
  · rw [State.value, hvars]
    exact (Vars.lookupvar_called _ _ _).trans hwritten.value
  · intro n hn
    rw [State.value, hvars]
    exact (Vars.lookupvar_called _ _ _).trans (hwritten.others n hn)
  · funext n
    rw [State.readonly, hvars]
    exact hwritten.readonly n

end

/-! ### One call -/

def optargName : Text := "OPTARG".toList

/-- The three variables can be assigned, and the position is a valid one. -/
structure State.Ready (optvar : Text) (st : State) : Prop where
  valid : st.shellparam.Valid
  optvar : st.readonly optvar = false
  optarg : st.readonly optargName = false
  optind : st.readonly optindName = false

section
variable {optstr optvar : Text} {args : List Text} {st : State}

/-- What `getopts` does to `OPTARG`. -/
def optargOps : Option (Option Text) → List VarOp
  | none => []
  | some none => [.unset "OPTARG".toList]
  | some (some arg) => [.setvar "OPTARG".toList (some arg) VFlags.zero]

/-- The assignments at the end of `getopts`. -/
theorem optVars_stored (hgood : isGoodName optvar) (harg : optvar ≠ optargName)
    (hind : optvar ≠ optindName) (hro : st.readonly optvar = false)
    (hroarg : st.readonly optargName = false) (hroind : st.readonly optindName = false)
    (o : Scan) :
    ∃ st', st.varOps (optVars optvar o) = (none, st') ∧ st'.shellparam = st.shellparam ∧
      st'.values optvar = ⟨some [o.c], o.optarg.getD (st.value optargName),
        some (fmtInt (o.optnext + 1))⟩ ∧ st'.readonly = st.readonly := by
  have hfirst : ∃ st₁ : State, (∀ ops, st.varOps (optargOps o.optarg ++ ops) = st₁.varOps ops) ∧
      st₁.shellparam = st.shellparam ∧
      st₁.value optargName = o.optarg.getD (st.value optargName) ∧
      st₁.readonly = st.readonly := by
    have hstore : ∀ val : Option Text, ∃ st₁,
        st.varOp (.setvar optargName val VFlags.zero) = (none, st₁) ∧
          Stored st st₁ optargName val :=
      fun val => varOp_stored (by decide) hroarg rfl rfl (.inl (by decide))
    cases o.optarg with
    | none => exact ⟨st, fun ops => rfl, rfl, rfl, rfl⟩
    | some val =>
      obtain ⟨st₁, hop, hstored⟩ := hstore val
      refine ⟨st₁, fun ops => ?_, hstored.shellparam, hstored.value, hstored.readonly⟩
      have hop' : ∀ op, st.varOp op = (none, st₁) → st.varOps ([op] ++ ops) = st₁.varOps ops := by
        intro op h
        rw [List.singleton_append, State.varOps, h]
      cases val with
      | none => exact hop' _ hop
      | some arg => exact hop' _ hop
  obtain ⟨st₁, hops₁, hparam₁, hvalue₁, hro₁⟩ := hfirst
  obtain ⟨st₂, hop₂, hstored₂⟩ := @varOp_stored st₁ optindName
    (some (fmtInt (o.optnext + 1))) { VFlags.zero with nofunc := true } (by decide)
    (by rw [hro₁, hroind]) rfl rfl (.inr rfl)
  obtain ⟨st₃, hop₃, hstored₃⟩ := @varOp_stored st₂ optvar (some [o.c]) VFlags.zero hgood
    (by rw [hstored₂.readonly, hro₁, hro]) rfl rfl (.inl hind)
  refine ⟨st₃, ?_, ?_, ?_, ?_⟩
  · refine (hops₁ _).trans ?_
    rw [State.varOps]
    have hop₂' : st₁.varOp (.setvar "OPTIND".toList (some (fmtInt (o.optnext + 1)))
        { VFlags.zero with nofunc := true }) = (none, st₂) := hop₂
    rw [hop₂']
    dsimp only
    rw [State.varOps, hop₃]
    rfl
  · rw [hstored₃.shellparam, hstored₂.shellparam, hparam₁]
  · have harg' : st₃.value optargName = o.optarg.getD (st.value optargName) := by
      rw [hstored₃.others _ harg.symm, hstored₂.others _ (by decide), hvalue₁]
    have hind' : st₃.value optindName = some (fmtInt (o.optnext + 1)) := by
      rw [hstored₃.others _ hind.symm, hstored₂.value]
    show (⟨st₃.value optvar, st₃.value optargName, st₃.value optindName⟩ : Values) = _
    rw [harg', hind', hstored₃.value]
  · rw [hstored₃.readonly, hstored₂.readonly, hro₁]

/-- The place that a call takes up. -/
theorem fitOptind_spec (limit : ℕ) (hlimit : 1 ≤ limit) (h : st.shellparam.Valid) :
    ∃ ind : ℕ, (fitOptind limit st).shellparam.optind = ind ∧ 1 ≤ ind ∧ ind ≤ limit ∧
      (fitOptind limit st).vars = st.vars ∧
      SameParams st.shellparam (fitOptind limit st).shellparam := by
  unfold fitOptind
  by_cases hout : st.shellparam.optind < 0 ∨ limit < st.shellparam.optind
  · rw [if_pos hout]
    exact ⟨1, rfl, le_rfl, hlimit, rfl, rfl, rfl⟩
  · rw [if_neg hout]
    rcases h.optind with hneg | hpos
    · omega
    · exact ⟨st.shellparam.optind.toNat, by omega, by omega, by omega, rfl, rfl, rfl⟩

/-- A position within the list is not changed. -/
theorem fitOptind_self {limit ind : ℕ} (hind : st.shellparam.optind = ind) (hle : ind ≤ limit) :
    fitOptind limit st = st := by
  unfold fitOptind
  rw [if_neg (by omega)]

theorem getoptscmd_eq (h : st.shellparam.Valid) :
    getoptscmd optstr optvar args st = getopts optstr optvar (st.optbase args)
      (fitOptind ((st.optbase args).length + 1) st) := by
  unfold getoptscmd State.optbase
  by_cases hargs : args = []
  · rw [if_pos hargs, if_pos hargs, h.nparam]
  · rw [if_neg hargs, if_neg hargs]

theorem getoptscmd_reference (hgood : isGoodName optvar) (harg : optvar ≠ optargName)
    (hind : optvar ≠ optindName) (h : st.Ready optvar) :
    ∃ st', getoptscmd optstr optvar args st =
        (.ok (decide ((findOption optstr (st.optbase args) (st.position args)).1 = .done)), st') ∧
      st'.Ready optvar ∧
      st'.position args = (findOption optstr (st.optbase args) (st.position args)).2 ∧
      st'.optbase args = st.optbase args ∧
      st'.values optvar =
        ⟨some [(findOption optstr (st.optbase args) (st.position args)).1.letter (silent optstr)],
          keptOptarg (silent optstr) (st.value optargName)
            (findOption optstr (st.optbase args) (st.position args)).1,
          some (fmtInt ((findOption optstr (st.optbase args) (st.position args)).2.next + 1))⟩ := by
  rw [getoptscmd_eq h.valid]
  obtain ⟨ind, hfit, hpos, hle, hvars, hsame⟩ :=
    fitOptind_spec ((st.optbase args).length + 1) (by omega) h.valid
  have hposition : st.position args = ⟨ind - 1, currentWord (st.optbase args) ind
      (fitOptind ((st.optbase args).length + 1) st).shellparam.optoff⟩ := by
    unfold State.position
    dsimp only
    rw [hfit, Int.toNat_natCast]
  rw [hposition]
  generalize hst₁ : fitOptind ((st.optbase args).length + 1) st = st₁ at hfit hvars hsame hposition ⊢
  have hagrees := @nextOpt_agrees optstr (st.optbase args) ind st₁.shellparam.optoff hpos
  have hnext := @nextOpt_position optstr (st.optbase args) ind st₁.shellparam.optoff hpos
  have hbound := @findOption_le optstr (st.optbase args)
    ⟨ind - 1, currentWord (st.optbase args) ind st₁.shellparam.optoff⟩ (by simp; omega)
  generalize findOption optstr (st.optbase args)
    ⟨ind - 1, currentWord (st.optbase args) ind st₁.shellparam.optoff⟩ = found at *
  have hro : ∀ name, (st₁.withParam { st₁.shellparam with optind := -1 }).readonly name =
      st.readonly name := by
    intro name
    rw [State.readonly, State.withParam, hvars, State.readonly]
  unfold getopts
  dsimp only
  rw [hfit, Int.toNat_natCast]
  generalize nextOpt optstr (st.optbase args) ind st₁.shellparam.optoff = o at *
  obtain ⟨st', hops, hparam, hvalues, hreadonly⟩ := @optVars_stored optvar
    (st₁.withParam { st₁.shellparam with optind := -1 }) hgood harg hind (by rw [hro, h.optvar])
    (by rw [hro, h.optarg]) (by rw [hro, h.optind]) o
  rw [hops]
  have hp : st'.shellparam.p = st.shellparam.p := by
    rw [hparam]
    exact hsame.p
  have hn : st'.shellparam.nparam = st.shellparam.nparam := by
    rw [hparam]
    exact hsame.nparam
  refine ⟨_, by rw [hagrees.done], ?_, ?_, ?_, ?_⟩
  · refine ⟨⟨?_, .inr ?_⟩, ?_, ?_, ?_⟩
    · show st'.shellparam.nparam = st'.shellparam.p.length
      rw [hn, hp, h.valid.nparam]
    · show (1 : ℤ) ≤ o.optnext + 1
      omega
    · show st'.readonly optvar = false
      rw [hreadonly, hro, h.optvar]
    · show st'.readonly optargName = false
      rw [hreadonly, hro, h.optarg]
    · show st'.readonly optindName = false
      rw [hreadonly, hro, h.optind]
  · have hbase : (st'.withParam { st'.shellparam with
        optind := o.optnext + 1, optoff := optoffOf (st.optbase args) o }).optbase args =
          st.optbase args := by
      unfold State.optbase
      split
      · exact hp
      · rfl
    unfold State.position
    dsimp only
    rw [hbase, @fitOptind_self _ ((st.optbase args).length + 1) (o.optnext + 1) (by rfl)
      (by rw [hagrees.optnext]; omega)]
    show (⟨(o.optnext + 1 : ℤ).toNat - 1, currentWord (st.optbase args) (o.optnext + 1 : ℤ).toNat
      (optoffOf (st.optbase args) o)⟩ : Position) = found.2
    rw [show ((o.optnext : ℤ) + 1).toNat = o.optnext + 1 by omega, hnext, hagrees.optnext]
    rfl
  · unfold State.optbase
    split
    · exact hp
    · rfl
  · have hvalue : (st₁.withParam { st₁.shellparam with optind := -1 }).value optargName =
        st.value optargName := by
      rw [State.value, State.withParam, hvars, State.value]
    show st'.values optvar = _
    rw [hvalues, hvalue, hagrees.c, hagrees.optarg, hagrees.optnext]
    cases found.1 <;> rfl

/-- The state and the reference are at the same place. -/
structure Tracks (optvar : Text) (args optbase : List Text) (st : State) (r : Reference) :
    Prop where
  ready : st.Ready optvar
  optbase : st.optbase args = optbase
  pos : st.position args = r.pos
  values : st.values optvar = r.values

theorem turn_tracks (hgood : isGoodName optvar) (harg : optvar ≠ optargName)
    (hind : optvar ≠ optindName) {optbase : List Text} {r : Reference} (t : Turn)
    (h : Tracks optvar args optbase st r) :
    (st.turn optstr optvar args t).1 = (r.turn keptOptarg optstr optbase t).1 ∧
      Tracks optvar args optbase (st.turn optstr optvar args t).2
        (r.turn keptOptarg optstr optbase t).2 := by
  cases t with
  | call =>
    obtain ⟨st', hcmd, hready, hpos, hbase, hvalues⟩ :=
      @getoptscmd_reference optstr optvar args st hgood harg hind h.ready
    have hold : st.value optargName = r.values.optarg := congrArg Values.optarg h.values
    rw [h.optbase, h.pos] at hcmd hpos hvalues
    rw [hold] at hvalues
    unfold State.turn Reference.turn
    simp only [hcmd]
    exact ⟨by rw [hvalues], hready, hbase.trans h.optbase, hpos, hvalues⟩
  | restart =>
    obtain ⟨st', hop, hparam, hvalue, hothers, hro⟩ := varOp_restart h.ready.optind
    have hvalues : st'.values optvar = { r.values with optind := some "1".toList } := by
      rw [← h.values]
      show (⟨st'.value optvar, st'.value optargName, st'.value optindName⟩ : Values) = _
      rw [hothers optvar hind, hothers optargName (by decide), hvalue]
      rfl
    have hbase : st'.optbase args = optbase := by
      rw [← h.optbase, State.optbase, hparam]
      rfl
    unfold State.turn Reference.turn
    simp only [hop]
    refine ⟨by rw [hvalues], ⟨⟨?_, .inr ?_⟩, ?_, ?_, ?_⟩, hbase, ?_, hvalues⟩
    · rw [hparam]
      exact h.ready.valid.nparam
    · rw [hparam]
    · rw [hro]
      exact h.ready.optvar
    · rw [hro]
      exact h.ready.optarg
    · rw [hro]
      exact h.ready.optind
    · have hfit := @fitOptind_self st' ((st'.optbase args).length + 1) 1 (by rw [hparam]; rfl)
        (by omega)
      unfold State.position
      dsimp only
      rw [hfit, hparam]
      rfl

/-- A sequence of calls, with `OPTIND=1` in between, gives what the reference gives. -/
theorem turns_reference (hgood : isGoodName optvar) (harg : optvar ≠ optargName)
    (hind : optvar ≠ optindName) (h : st.Ready optvar) (turns : List Turn) :
    (Run.run (State.turn optstr optvar args) st turns).1 =
      (Run.run (Reference.turn keptOptarg optstr (st.optbase args))
        ⟨st.position args, st.values optvar⟩ turns).1 :=
  (Run.run_simulates (fun _ _ t hst (_ : True) => turn_tracks hgood harg hind t hst)
    (⟨h, rfl, rfl, rfl⟩ : Tracks optvar args (st.optbase args) st
      ⟨st.position args, st.values optvar⟩) (Run.Along.of_forall (fun _ _ => trivial) st turns)).1

end

end Bootsh.Options
