import Bootsh.MyString
import Bootsh.Var.Hooks

/-!
The positional parameters and `getopts`, from `options.c`. The hook of `OPTIND` writes to the
position of `getopts`.
-/
namespace Bootsh.Options

/-! ### The parameters -/

def number (s : Text) : Except Text ℕ := do
  let n ← atomax s 10
  if n.toInt < 0 ∨ 2 ^ 31 - 1 < n.toInt then .error (badnum s) else return n.toInt.toNat

/-- `struct shparam`. -/
structure Shparam where
  nparam : ℕ
  p : List Text
  optind : ℤ
  optoff : ℤ
  deriving DecidableEq, Repr

def setparam (argv : List Text) : Shparam :=
  { nparam := argv.length, p := argv, optind := 1, optoff := -1 }

/-- `number(value) ?: 1`. -/
def optindOf (value : Text) : Except Text ℕ := do
  let n ← number value
  return if n = 0 then 1 else n

def getoptsreset (value : Text) (sp : Shparam) : Except Text Shparam := do
  let n ← optindOf value
  return { sp with optind := n, optoff := -1 }

/-- Run the hooks that were called, the oldest first. The others do not touch the parameters. -/
def callHooks : List (VarFunc × Text) → Shparam → Except Text Shparam
  | [], sp => .ok sp
  | (func, value) :: calls, sp => do
    let sp ← callHooks calls sp
    match func with
    | .getoptsreset => getoptsreset value sp
    | .changepath | .changemail => return sp

/-! ### The state -/

/-- The variables with their hooks, all of which have run, and `shellparam`. -/
structure State where
  vars : Vars
  shellparam : Shparam
  hooks : vars.Hooks
  quiet : vars.called = []

namespace State

/-- Replace the variables, and run the hooks that the replacement called. -/
def settle (vars : Vars) (h : vars.Hooks) (st : State) : Except Text State :=
  match callHooks vars.called st.shellparam with
  | .error msg => .error msg
  | .ok sp => .ok ⟨{ vars with called := [] }, sp, h.same rfl rfl, rfl⟩

/-- An operation on the variables; where its hook raises an error, nothing has been stored
yet. -/
def varOp (op : VarOp) (st : State) : Option Text × State :=
  match st.settle (st.vars.step op).2 (st.hooks.step op) with
  | .error msg => (some msg, st)
  | .ok st' => ((st.vars.step op).1, st')

/-- Operations up to the first that fails. -/
def varOps : List VarOp → State → Option Text × State
  | [], st => (none, st)
  | op :: ops, st =>
    match st.varOp op with
    | (some msg, st) => (some msg, st)
    | (none, st) => varOps ops st

def withParam (sp : Shparam) (st : State) : State := { st with shellparam := sp }

/-- `shift`. -/
def shiftcmd (n : ℕ) (st : State) : Option Text × State :=
  let sp := st.shellparam
  if sp.nparam < n then (some "can't shift that many".toList, st)
  else (none, st.withParam { nparam := sp.nparam - n, p := sp.p.drop n, optind := 1, optoff := -1 })

end State

/-! ### `getopts` -/

/-- What follows the letter `c` in `optstr`; a `:` is no letter. -/
def findOpt (c : Char) : Text → Option Text
  | [] => none
  | d :: q =>
    if d = c then some q
    else match q with
      | ':' :: q => findOpt c q
      | q => findOpt c q

/-- Where `getopts` stands at the label `out`: the index of `*optnext`, `p`, `c` and `done`, and
what it does to `OPTARG`. -/
structure Scan where
  optnext : ℕ
  p : Option Text
  c : Char
  done : Bool
  optarg : Option (Option Text)
  deriving DecidableEq, Repr

/-- From the assignment of `*p++` to `c` on. -/
def scanOpt (optstr : Text) (optfirst : List Text) (optnext : ℕ) (c : Char) (p : Text) : Scan :=
  let silent := optstr.head? = some ':'
  match findOpt c (if silent then optstr.tail else optstr) with
  | none => ⟨optnext, some p, '?', false, some (if silent then some [c] else none)⟩
  | some (':' :: _) =>
    match p, optfirst[optnext]? with
    | [], none =>
      ⟨optnext, none, if silent then ':' else '?', false, some (if silent then some [c] else none)⟩
    | [], some arg => ⟨optnext + 1, none, c, false, some (some arg)⟩
    | p, _ => ⟨optnext, none, c, false, some (some p)⟩
  | some _ => ⟨optnext, some p, c, false, some (some [])⟩

/-- What is left of the word that `getopts` is in. -/
def currentWord (optfirst : List Text) (ind : ℕ) (off : ℤ) : Text :=
  let word := optfirst.getD (ind - 2) []
  if ind ≤ 1 ∨ off < 0 ∨ word.length < off then [] else word.drop off.toNat

def nextOpt (optstr : Text) (optfirst : List Text) (ind : ℕ) (off : ℤ) : Scan :=
  match currentWord optfirst ind off with
  | c :: p => scanOpt optstr optfirst (ind - 1) c p
  | [] =>
    match optfirst[ind - 1]? with
    | some ['-', '-'] => ⟨ind, none, '?', true, none⟩
    | some ('-' :: c :: p) => scanOpt optstr optfirst ind c p
    | _ => ⟨ind - 1, none, '?', true, none⟩

/-- The assignments that follow. -/
def optVars (optvar : Text) (o : Scan) : List VarOp :=
  (match o.optarg with
    | none => []
    | some none => [.unset "OPTARG".toList]
    | some (some arg) => [.setvar "OPTARG".toList (some arg) VFlags.zero]) ++
  [.setvar "OPTIND".toList (some (fmtInt (o.optnext + 1))) { VFlags.zero with nofunc := true },
    .setvar optvar (some [o.c]) VFlags.zero]

/-- `optoff` at the end. -/
def optoffOf (optfirst : List Text) (o : Scan) : ℤ :=
  match o.p with
  | none => -1
  | some p => (optfirst.getD (o.optnext - 1) []).length - p.length

/-- An error of an assignment leaves `optind` at -1. -/
def getopts (optstr optvar : Text) (optfirst : List Text) (st : State) :
    Except Text Bool × State :=
  let sp := st.shellparam
  let o := nextOpt optstr optfirst sp.optind.toNat sp.optoff
  match (st.withParam { sp with optind := -1 }).varOps (optVars optvar o) with
  | (some msg, st) => (.error msg, st)
  | (none, st) => (.ok o.done, st.withParam { st.shellparam with
      optind := o.optnext + 1
      optoff := optoffOf optfirst o })

theorem scanOpt_p {optstr : Text} {optfirst : List Text} {optnext : ℕ} {c : Char} {p p' : Text}
    (h : (scanOpt optstr optfirst optnext c p).p = some p') :
    p' = p ∧ (scanOpt optstr optfirst optnext c p).optnext = optnext := by
  unfold scanOpt at h ⊢
  dsimp only at h ⊢
  split at h
  case h_1 hopt =>
    cases h
    simp
  case h_2 => split at h <;> cases h
  case h_3 hopt =>
    cases h
    simp

/-- What is left of a word at the position that stands for it. -/
theorem currentWord_at {optfirst : List Text} {ind k : ℕ} {word p : Text}
    (hword : optfirst[ind]? = some word) (hp : word.drop k = p) (hk : k ≤ word.length) :
    currentWord optfirst (ind + 2) (word.length - p.length) = p := by
  have hlen : (word.length : ℤ) - p.length = k := by
    rw [← hp, List.length_drop]
    omega
  unfold currentWord
  rw [hlen, show ind + 2 - 2 = ind by omega, List.getD_eq_getElem?_getD, hword, Option.getD_some,
    if_neg (by omega), Int.toNat_natCast, hp]

theorem option_word (arg : Option Text) :
    arg = some ['-', '-'] ∨
    (∃ c p, arg = some ('-' :: c :: p) ∧ (c = '-' → p = [] → False)) ∨
    (arg = some ['-', '-'] → False) ∧ ∀ c p, arg = some ('-' :: c :: p) → False := by
  by_cases hend : arg = some ['-', '-']
  · exact .inl hend
  by_cases hopt : ∃ c p, arg = some ('-' :: c :: p)
  · obtain ⟨c, p, rfl⟩ := hopt
    exact .inr (.inl ⟨c, p, rfl, fun hc hp => hend (by rw [hc, hp])⟩)
  · exact .inr (.inr ⟨hend, fun c p harg => hopt ⟨c, p, harg⟩⟩)

theorem currentWord_cons {optfirst : List Text} {ind : ℕ} {off : ℤ} {c : Char} {p : Text}
    (h : currentWord optfirst ind off = c :: p) :
    ∃ word, 1 < ind ∧ optfirst[ind - 2]? = some word ∧ word.drop (off.toNat + 1) = p ∧
      off.toNat + 1 ≤ word.length := by
  unfold currentWord at h
  dsimp only at h
  split at h
  case isTrue => cases h
  case isFalse hin =>
    have hdrop : (optfirst.getD (ind - 2) []).drop (off.toNat + 1) = p := by
      rw [← List.drop_drop, h]
      rfl
    cases hword : optfirst[ind - 2]? with
    | none =>
      rw [List.getD_eq_getElem?_getD, hword] at h
      simp at h
    | some word =>
      rw [List.getD_eq_getElem?_getD, hword, Option.getD_some] at h hdrop
      have hlen := congrArg List.length h
      rw [List.length_drop, List.length_cons] at hlen
      exact ⟨word, by omega, rfl, hdrop, by omega⟩

/-- The next call of `getopts` goes on where this one has left the word. -/
theorem nextOpt_continues {optstr : Text} {optfirst : List Text} {ind : ℕ} {off : ℤ} {p : Text}
    (hind : 1 ≤ ind) (h : (nextOpt optstr optfirst ind off).p = some p) :
    currentWord optfirst ((nextOpt optstr optfirst ind off).optnext + 1)
      (optoffOf optfirst (nextOpt optstr optfirst ind off)) = p := by
  unfold optoffOf
  rw [h]
  unfold nextOpt at h ⊢
  cases hcur : currentWord optfirst ind off with
  | cons c p₁ =>
    simp only [hcur] at h ⊢
    obtain ⟨rfl, hnext⟩ := scanOpt_p h
    obtain ⟨word, hlt, hword, hdrop, hlen⟩ := currentWord_cons hcur
    have h := currentWord_at hword hdrop hlen
    rw [hnext, show ind - 1 + 1 = ind - 2 + 2 by omega, show ind - 1 - 1 = ind - 2 by omega,
      List.getD_eq_getElem?_getD, hword]
    exact h
  | nil =>
    simp only [hcur] at h ⊢
    split at h
    case h_1 => cases h
    case h_3 => cases h
    case h_2 c p₁ hne hword =>
      obtain ⟨rfl, hnext⟩ := scanOpt_p h
      have h := @currentWord_at optfirst (ind - 1) 2 _ p hword rfl (by simp)
      rw [hnext, show ind + 1 = ind - 1 + 2 by omega, List.getD_eq_getElem?_getD, hword]
      exact h

/-- A position behind all arguments gives way to the first. -/
def fitOptind (limit : ℕ) (st : State) : State :=
  if st.shellparam.optind < 0 ∨ limit < st.shellparam.optind then
    st.withParam { st.shellparam with optind := 1, optoff := -1 }
  else st

/-- The builtin, with arguments of its own or with the parameters. -/
def getoptscmd (optstr optvar : Text) (args : List Text) (st : State) : Except Text Bool × State :=
  if args = [] then
    getopts optstr optvar st.shellparam.p (fitOptind (st.shellparam.nparam + 1) st)
  else getopts optstr optvar args (fitOptind (args.length + 1) st)

end Bootsh.Options
