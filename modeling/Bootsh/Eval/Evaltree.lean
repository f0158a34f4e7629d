import Bootsh.Eval.Node

/-!
The evaluation of commands, from `eval.c`. There are no traps, so that what follows `EV_EXIT` is
always the end of the process. Loops and recursion take fuel.
-/
namespace Bootsh.Eval

/-! ### The state -/

/-- `EV_EXIT` and `EV_TESTED`. -/
structure Flags where
  exit : Bool := false
  tested : Bool := false
  deriving DecidableEq, Repr

/-- `flags & EV_TESTED`. -/
def Flags.onlyTested (flags : Flags) : Flags := { tested := flags.tested }

/-- `SKIPBREAK`, `SKIPCONT`, `SKIPFUNC` and `SKIPFUNCDEF`. -/
inductive Skip where
  | brk
  | cont
  | func
  | funcdef
  deriving DecidableEq, Repr

/-- `trace` has the words that were run, in their order; those of a child process stand where it
was forked. -/
structure State where
  trace : List Text
  exitstatus : ℕ
  evalskip : Option Skip
  skipcount : ℕ
  loopnest : ℕ
  funcs : Text → Option Node

/-- How a function ends: it returns, or raises `EXEND`. -/
inductive Res (α : Type) where
  | ok (a : α) (st : State)
  | exend (st : State)

/-- `none` is where the fuel runs out. -/
def EvalM (α : Type) : Type := State → Option (Res α)

instance : Monad EvalM where
  pure a st := some (.ok a st)
  bind m f st := match m st with
    | none => none
    | some (.exend st) => some (.exend st)
    | some (.ok a st) => f a st

section
variable {α β : Type} {m : EvalM α} {f : α → EvalM β} {st st' : State} {a : α}

theorem bind_none (h : m st = none) : (m >>= f) st = none := by
  simp only [bind, h]

theorem bind_exend (h : m st = some (.exend st')) : (m >>= f) st = some (.exend st') := by
  simp only [bind, h]

theorem bind_ok (h : m st = some (.ok a st')) : (m >>= f) st = f a st' := by
  simp only [bind, h]

end

def get : EvalM State := fun st => some (.ok st st)

def modify (f : State → State) : EvalM Unit := fun st => some (.ok () (f st))

def exraise {α : Type} : EvalM α := fun st => some (.exend st)

def outOfFuel {α : Type} : EvalM α := fun _ => none

/-- `evaltree`, as the functions that it calls know it. -/
abbrev Evaluator : Type := Flags → Option Node → EvalM ℕ

/-! ### Loops -/

def skiploop : EvalM (Option Skip) := fun st =>
  match st.evalskip with
  | some .brk | some .cont =>
    if st.skipcount - 1 = 0 then
      some (.ok st.evalskip { st with skipcount := st.skipcount - 1, evalskip := none })
    else some (.ok (some .brk) { st with skipcount := st.skipcount - 1 })
  | skip => some (.ok skip st)

/-- `skip & ~SKIPCONT`. -/
def leaves (skip : Option Skip) : Bool := skip.isSome && skip != some .cont

/-- The loop of `evalloop`. -/
def evalloopFrom (eval : Evaluator) (flags : Flags) (until_ : Bool) (ch1 ch2 : Node) :
    ℕ → ℕ → EvalM ℕ
  | 0, _ => outOfFuel
  | k + 1, status => do
    let i ← eval { tested := true } (some ch1)
    let skip ← skiploop
    let status := if skip = some .func then i else status
    if skip.isSome then
      if leaves skip then return status else evalloopFrom eval flags until_ ch1 ch2 k status
    else if (i == 0) == until_ then return status
    else
      let status ← eval flags.onlyTested (some ch2)
      let skip ← skiploop
      if leaves skip then return status else evalloopFrom eval flags until_ ch1 ch2 k status

/-- `m` between `loopnest++` and `loopnest--`. -/
def inLoop (m : EvalM ℕ) : EvalM ℕ := do
  modify fun st => { st with loopnest := st.loopnest + 1 }
  let status ← m
  modify fun st => { st with loopnest := st.loopnest - 1 }
  return status

def evalloop (eval : Evaluator) (k : ℕ) (flags : Flags) (until_ : Bool) (ch1 ch2 : Node) :
    EvalM ℕ :=
  inLoop (evalloopFrom eval flags until_ ch1 ch2 k 0)

/-- The loop of `evalfor`, for the number of words that are left. -/
def evalforFrom (eval : Evaluator) (flags : Flags) (body : Node) : ℕ → ℕ → EvalM ℕ
  | 0, status => return status
  | n + 1, _ => do
    let status ← eval flags.onlyTested (some body)
    let skip ← skiploop
    if leaves skip then return status else evalforFrom eval flags body n status

def evalfor (a : Answers) (eval : Evaluator) (flags : Flags) (args : ℕ) (body : Node) :
    EvalM ℕ := do
  let st ← get
  inLoop (evalforFrom eval flags body (a.words st.trace args) 0)

def evalcase (a : Answers) (eval : Evaluator) (flags : Flags) (expr : ℕ)
    (cases : List (Option Node)) : EvalM ℕ := do
  let st ← get
  match cases[a.casematch st.trace expr]? with
  | some (some body) => eval flags (some body)
  | some none | none => return 0

/-! ### Child processes -/

/-- Run `m` in a child process, and wait for it. It always raises `EXEND`; the number is that of
`abort`. -/
def forkshell (m : EvalM ℕ) : EvalM ℕ := fun st =>
  match m st with
  | none => none
  | some (.exend st') => some (.ok (st'.exitstatus % 256) { st with trace := st'.trace })
  | some (.ok _ st') => some (.ok 134 { st with trace := st'.trace })

/-- What a subshell does in its process; an error of `redirect` ends it. -/
def subshell (a : Answers) (eval : Evaluator) (flags : Flags) (redirect : ℕ) (n : Node) :
    EvalM ℕ := do
  let st ← get
  let err := a.redirect st.trace redirect
  if err ≠ 0 then
    modify fun st => { st with exitstatus := err }
    exraise
  else eval flags (some n)

def evalsubshell (a : Answers) (eval : Evaluator) (flags : Flags) (backgnd : Bool) (redirect : ℕ)
    (n : Node) : EvalM ℕ := do
  if !backgnd && flags.exit then subshell a eval flags redirect n
  else
    let status ← forkshell
      (subshell a eval { exit := true, tested := flags.tested && !backgnd } redirect n)
    return if backgnd then 0 else status

/-- The elements of a pipeline; the status is that of the last one. -/
def evalpipeFrom (eval : Evaluator) (flags : Flags) : List Node → ℕ → EvalM ℕ
  | [], status => return status
  | n :: rest, _ => do
    let status ← forkshell (eval { flags with exit := true } (some n))
    evalpipeFrom eval flags rest status

def evalpipe (eval : Evaluator) (flags : Flags) (backgnd : Bool) (cmdlist : List Node) :
    EvalM ℕ := do
  let status ← evalpipeFrom eval flags cmdlist 0
  return if backgnd then 0 else status

/-! ### Simple commands -/

/-- The loop of `evalstring`, and of `cmdloop`. -/
def evallines (eval : Evaluator) (flags : Flags) : List (Option Node) → ℕ → EvalM ℕ
  | [], status => return status
  | n :: rest, status => do
    let i ← eval flags n
    let status := if n.isSome then i else status
    let st ← get
    if st.evalskip.isSome then return status else evallines eval flags rest status

def evalstring (eval : Evaluator) (flags : Flags) (l : List (Option Node)) : EvalM ℕ :=
  evallines eval flags l 0

/-- `evalskip & ~(SKIPFUNC | SKIPFUNCDEF)`. -/
def clearFunc : Option Skip → Option Skip
  | some .func | some .funcdef | none => none
  | some .brk => some .brk
  | some .cont => some .cont

def cmdloop (eval : Evaluator) (l : List (Option Node)) : EvalM ℕ := do
  let status ← evallines eval {} l 0
  modify fun st => { st with evalskip := clearFunc st.evalskip }
  return status

def breakcmd (skip : Skip) (n : ℕ) : EvalM ℕ := do
  let st ← get
  let n := min n st.loopnest
  if 0 < n then modify fun st => { st with evalskip := some skip, skipcount := n }
  return 0

def returncmd : Option ℕ → EvalM ℕ
  | some n => do
    modify fun st => { st with evalskip := some .func }
    return n
  | none => do
    modify fun st => { st with evalskip := some .funcdef }
    let st ← get
    return st.exitstatus

def evalbltin (m : EvalM ℕ) : EvalM ℕ := do
  let status ← m
  modify fun st => { st with exitstatus := status }
  return status

/-- What follows the label `funcdone`, for the state before the call. -/
def funcdone (st st' : State) : State :=
  { st' with loopnest := st.loopnest, evalskip := clearFunc st'.evalskip }

/-- `evalfun`; the status is `exitstatus`. -/
def evalfun (eval : Evaluator) (flags : Flags) (body : Node) : EvalM ℕ := fun st =>
  match eval flags.onlyTested (some body) { st with loopnest := 0 } with
  | none => none
  | some (.exend st') => some (.exend (funcdone st st'))
  | some (.ok _ st') => some (.ok st'.exitstatus (funcdone st st'))

def evalcommand (a : Answers) (eval : Evaluator) (flags : Flags) : Command → EvalM ℕ
  | .word text => do
    let st ← get
    modify fun st => { st with trace := st.trace ++ [text] }
    match st.funcs text with
    | some body => evalfun eval flags body
    | none => return a.status st.trace text
  | .break_ n _ => evalbltin (breakcmd .brk n)
  | .continue_ n _ => evalbltin (breakcmd .cont n)
  | .return_ n => evalbltin (returncmd n)
  | .eval l => evalbltin (evalstring eval flags.onlyTested l)
  | .dot l => evalbltin (cmdloop eval l)

/-! ### `evaltree` -/

/-- The condition `(!status) == isor` under which the second command is left out. -/
def BinOp.short (status : ℕ) : BinOp → Bool
  | .and => status != 0
  | .or => status == 0
  | .semi => false

/-- The `switch` of `evaltree`: the status, and whether `checkexit` is `EV_TESTED`. -/
def evalnode (a : Answers) (eval : Evaluator) (k : ℕ) (flags : Flags) : Node → EvalM (ℕ × Bool)
  | .not com => do
    let status ← eval { tested := true } (some com)
    let st ← get
    return (if st.evalskip.isNone then (if status = 0 then 1 else 0) else status, false)
  | .redir redirect n => do
    let st ← get
    let status := a.redirect st.trace redirect
    if status ≠ 0 then return (status, true)
    else
      let status ← eval flags.onlyTested (some n)
      return (status, false)
  | .cmd c => do
    let status ← evalcommand a eval flags c
    return (status, true)
  | .for_ args body => do
    let status ← evalfor a eval flags args body
    return (status, false)
  | .loop until_ ch1 ch2 => do
    let status ← evalloop eval k flags until_ ch1 ch2
    return (status, false)
  | .subshell redirect n => do
    let status ← evalsubshell a eval flags false redirect n
    return (status, true)
  | .backgnd redirect n => do
    let status ← evalsubshell a eval flags true redirect n
    return (status, true)
  | .pipe backgnd cmdlist => do
    let status ← evalpipe eval flags backgnd cmdlist
    return (status, true)
  | .case expr cases => do
    let status ← evalcase a eval flags expr cases
    return (status, false)
  | .binary op ch1 ch2 => do
    let status ← eval { tested := flags.tested || op != .semi } (some ch1)
    let st ← get
    if op.short status || st.evalskip.isSome then return (status, false)
    else
      let status ← eval flags (some ch2)
      return (status, false)
  | .if_ test ifpart elsepart => do
    let status ← eval { tested := true } (some test)
    let st ← get
    if st.evalskip.isSome then return (status, false)
    else if status = 0 then
      let status ← eval flags (some ifpart)
      return (status, false)
    else match elsepart with
      | some n =>
        let status ← eval flags (some n)
        return (status, false)
      | none => return (0, false)
  | .defun name body => do
    modify fun st => { st with funcs := Function.update st.funcs name (some body) }
    return (0, false)

/-- What follows the label `out`. -/
def out (eflag : Bool) (flags : Flags) (checkexit : Bool) (status : ℕ) : EvalM ℕ := do
  if eflag && (!flags.tested && checkexit) && status != 0 then exraise
  else if flags.exit then exraise
  else
    let st ← get
    return st.exitstatus

def evaltree (a : Answers) (eflag : Bool) : ℕ → Evaluator
  | 0, _, _ => outOfFuel
  | _ + 1, flags, none => out eflag flags false 0
  | k + 1, flags, some n => do
    let (status, checkexit) ← evalnode a (evaltree a eflag k) k flags n
    modify fun st => { st with exitstatus := status }
    out eflag flags checkexit status

end Bootsh.Eval
