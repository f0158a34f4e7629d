import Bootsh.Eval.Node

/-!
What commands are to do, without flags: a jump out of loops, functions and scripts ends whatever
it leaves by itself, and commands know whether their status is tested.
-/
namespace Bootsh.Eval

/-- The jumps: out of `n` loops, to the next round of the `n`-th loop around, out of a function or
a script (with the status that was last, or with another), and out of the shell. -/
inductive Stop where
  | brk (n : ℕ)
  | cont (n : ℕ)
  | ret (last : Bool)
  | exit
  deriving DecidableEq, Repr

/-- `checks` has the status of every command that `-e` looks at, and whether it was tested.
`clean` is where the run has met the conditions that are watched. -/
structure Env where
  trace : List Text
  exitstatus : ℕ
  funcs : Text → Option Node
  checks : List (ℕ × Bool)
  clean : Bool

/-- `none` is where the fuel runs out. -/
abbrev Exec : Type := Env → Option (Option Stop × Env)

/-- Where a command is: in a condition or the like, and in how many loops of its function. -/
structure Ctx where
  tested : Bool
  loops : ℕ

abbrev Executor : Type := Ctx → Option Node → Exec

/-- Two rules that are left open: the status of a loop whose condition ends by a `return` without
operand, for the status there and that of the loop so far, and when the commands of a
pipeline in the background are tested. Then the conditions that are watched: that these
statuses are the same, and that these commands do the same tested or not. -/
structure Rules where
  condRet : ℕ → ℕ → ℕ
  bgTested : Bool → Bool
  watchRet : Bool
  watchBg : Bool

namespace Exec

def done : Exec := fun env => some (none, env)

def stop (s : Stop) : Exec := fun env => some (some s, env)

def setStatus (status : ℕ) : Exec := fun env => some (none, { env with exitstatus := status })

/-- Go on with `k`, however `m` ends. -/
def handle (m : Exec) (k : Option Stop → Exec) : Exec := fun env =>
  match m env with
  | none => none
  | some (r, env) => k r env

def ends (r : Option Stop) : Exec := fun env => some (r, env)

/-- Go on with `m'`, which may depend on the state, unless there is a jump. -/
def andThen (m : Exec) (m' : Env → Exec) : Exec := handle m fun r =>
  match r with
  | none => fun env => m' env env
  | some s => stop s

/-- A command that `-e` looks at when it has ended, by a jump or not. -/
def checked (eflag : Bool) (ctx : Ctx) (m : Exec) : Exec := handle m fun r env =>
  if r = some .exit then some (some .exit, env)
  else
    let env' := { env with checks := env.checks ++ [(env.exitstatus, ctx.tested)] }
    if eflag && !ctx.tested && env.exitstatus != 0 then some (some .exit, env')
    else some (r, env')

/-- Another process: what is left of it is its status. -/
def child (m : Exec) : Exec := fun env =>
  match m { env with checks := [] } with
  | none => none
  | some (_, env') => some (none, { env with
      trace := env'.trace, exitstatus := env'.exitstatus % 256, clean := env'.clean })

end Exec

open Exec

/-! ### Loops -/

/-- What a loop makes of a jump: `none` is for the next round, else the jump that is left. -/
def Stop.leave : Option Stop → Option (Option Stop)
  | none => none
  | some (.brk n) => some (if n ≤ 1 then none else some (.brk (n - 1)))
  | some (.cont n) => if n ≤ 1 then none else some (some (.cont (n - 1)))
  | some s => some (some s)

/-- A loop whose condition ends by a jump has the status of its rounds so far, but that of a
`return`. -/
def condStatus (p : Rules) (r : Option Stop) (status : ℕ) : Exec := fun env =>
  match r with
  | some (.ret false) | some .exit => some (none, env)
  | some (.ret true) => some (none, { env with
      exitstatus := p.condRet env.exitstatus status
      clean := env.clean && (!p.watchRet || env.exitstatus == status) })
  | _ => some (none, { env with exitstatus := status })

/-- A loop, with its status so far. -/
def loop (p : Rules) (exec : Executor) (ctx : Ctx) (until_ : Bool) (cond body : Node) :
    ℕ → ℕ → Exec
  | 0, _ => fun _ => none
  | k + 1, status =>
    handle (exec { tested := true, loops := ctx.loops + 1 } (some cond)) fun r env =>
      match r with
      | none =>
        if (env.exitstatus == 0) == until_ then setStatus status env
        else handle (exec { ctx with loops := ctx.loops + 1 } (some body)) (fun r env =>
          match Stop.leave r with
          | none => loop p exec ctx until_ cond body k env.exitstatus env
          | some r => ends r env) env
      | some s =>
        match Stop.leave (some s) with
        | none => loop p exec ctx until_ cond body k status env
        | some r => handle (condStatus p (some s) status) (fun _ => ends r) env

def forLoop (exec : Executor) (ctx : Ctx) (body : Node) : ℕ → ℕ → Exec
  | 0, status => setStatus status
  | n + 1, _ => handle (exec { ctx with loops := ctx.loops + 1 } (some body)) fun r env =>
    match Stop.leave r with
    | none => forLoop exec ctx body n env.exitstatus env
    | some r => ends r env

/-! ### Other processes -/

/-- The commands of a subshell, unless a redirection fails. -/
def inSubshell (a : Answers) (exec : Executor) (ctx : Ctx) (redirect : ℕ) (n : Node) : Exec :=
  fun env =>
    if a.redirect env.trace redirect ≠ 0 then setStatus (a.redirect env.trace redirect) env
    else exec ctx (some n) env

def execSubshell (a : Answers) (exec : Executor) (ctx : Ctx) (redirect : ℕ) (n : Node) : Exec :=
  child (inSubshell a exec ctx redirect n)

/-- The elements of a pipeline, which all see the status that was last before it. -/
def elements (exec : Executor) (ctx : Ctx) (last : ℕ) : List Node → ℕ → Exec
  | [], status => setStatus status
  | n :: rest, _ =>
    andThen (andThen (setStatus last) fun _ => child (exec ctx (some n))) fun env =>
      elements exec ctx last rest env.exitstatus

/-- The commands have done the same, and met the conditions that are watched. -/
def sameTrace : Option (Option Stop × Env) → Option (Option Stop × Env) → Bool
  | some (_, env), some (_, env') => env.trace == env'.trace && env.clean && env'.clean
  | _, _ => false

/-- A pipeline in the background. -/
def background (p : Rules) (exec : Executor) (ctx : Ctx) (l : List Node) : Exec := fun env =>
  let run tested := elements exec { ctx with tested } env.exitstatus l 0 env
  match run (p.bgTested ctx.tested) with
  | none => none
  | some (_, env') => some (none, { env' with
      exitstatus := 0
      clean := env'.clean && (!p.watchBg || !ctx.tested || sameTrace (run true) (run false)) })

/-! ### Simple commands -/

def script (exec : Executor) (ctx : Ctx) : List (Option Node) → ℕ → Exec
  | [], status => setStatus status
  | none :: rest, status => andThen (exec ctx none) fun _ => script exec ctx rest status
  | some n :: rest, _ => andThen (exec ctx (some n)) fun env =>
      script exec ctx rest env.exitstatus

/-- A `return` does not go further. -/
def catchReturn (m : Exec) : Exec := handle m fun r =>
  match r with
  | some (.ret _) => done
  | r => ends r

/-- A jump out of as many loops as there are. -/
def jump (ctx : Ctx) (n : ℕ) (s : ℕ → Stop) : Exec := andThen (setStatus 0) fun _ =>
  if min n ctx.loops = 0 then done else stop (s (min n ctx.loops))

def execCommand (a : Answers) (exec : Executor) (ctx : Ctx) : Command → Exec
  | .word text => fun env =>
    let env' := { env with trace := env.trace ++ [text] }
    match env.funcs text with
    | some body => catchReturn (exec { ctx with loops := 0 } (some body)) env'
    | none => setStatus (a.status env.trace text) env'
  | .break_ n _ => jump ctx n .brk
  | .continue_ n _ => jump ctx n .cont
  | .return_ (some n) => andThen (setStatus n) fun _ => stop (.ret false)
  | .return_ none => stop (.ret true)
  | .eval l => script exec ctx l 0
  | .dot l => catchReturn (script exec { ctx with tested := false } l 0)

/-! ### Commands -/

def execNode (p : Rules) (a : Answers) (eflag : Bool) (exec : Executor) (k : ℕ) (ctx : Ctx) :
    Node → Exec
  | .not com => andThen (exec { ctx with tested := true } (some com)) fun env =>
      setStatus (if env.exitstatus = 0 then 1 else 0)
  | .redir redirect n => fun env =>
    if a.redirect env.trace redirect ≠ 0 then
      checked eflag ctx (setStatus (a.redirect env.trace redirect)) env
    else exec ctx (some n) env
  | .cmd c => checked eflag ctx (execCommand a exec ctx c)
  | .for_ args body => fun env => forLoop exec ctx body (a.words env.trace args) 0 env
  | .loop until_ cond body => loop p exec ctx until_ cond body k 0
  | .subshell redirect n => checked eflag ctx (execSubshell a exec ctx redirect n)
  | .backgnd redirect n => checked eflag ctx
      (andThen (execSubshell a exec { ctx with tested := false } redirect n) fun _ => setStatus 0)
  | .pipe true l => checked eflag ctx (background p exec ctx l)
  | .pipe false l => checked eflag ctx fun env => elements exec ctx env.exitstatus l 0 env
  | .case expr cases => fun env =>
    match cases[a.casematch env.trace expr]? with
    | some (some body) => exec ctx (some body) env
    | some none | none => setStatus 0 env
  | .binary .and ch1 ch2 => andThen (exec { ctx with tested := true } (some ch1)) fun env =>
      if env.exitstatus = 0 then exec ctx (some ch2) else done
  | .binary .or ch1 ch2 => andThen (exec { ctx with tested := true } (some ch1)) fun env =>
      if env.exitstatus = 0 then done else exec ctx (some ch2)
  | .binary .semi ch1 ch2 => andThen (exec ctx (some ch1)) fun _ => exec ctx (some ch2)
  | .if_ test ifpart elsepart => andThen (exec { ctx with tested := true } (some test)) fun env =>
      if env.exitstatus = 0 then exec ctx (some ifpart)
      else match elsepart with
        | some n => exec ctx (some n)
        | none => setStatus 0
  | .defun name body => fun env =>
    some (none, { env with funcs := Function.update env.funcs name (some body), exitstatus := 0 })

def execTree (p : Rules) (a : Answers) (eflag : Bool) : ℕ → Executor
  | 0, _, _ => fun _ => none
  | _ + 1, _, none => done
  | k + 1, ctx, some n => execNode p a eflag (execTree p a eflag k) k ctx n

end Bootsh.Eval
