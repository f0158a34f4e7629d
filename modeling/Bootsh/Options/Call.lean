import Bootsh.Options.Getopts

/-!
Calls of functions, from `eval.c`, as far as the parameters go. `evalfun` puts `shellparam` back
before `evalcommand` unwinds the local variables.
-/
namespace Bootsh.Options

/-! ### Commands -/

/-- The commands that matter here: the builtins, assignments and other operations on variables
that are not about scopes, calls of functions, `command eval`, which catches errors, an
error and `return`. -/
inductive Cmd where
  | set (argv : List Text)
  | shift (n : ℕ)
  | getopts (optstr optvar : Text) (args : List Text)
  | var (op : VarOp) (h : op ≠ .pushlocalvars ∧ op ≠ .poplocalvars ∧ ∀ s, op ≠ .prefixAssign s)
  | call (assigns args : List Text) (body : List Cmd)
  | caught (body : List Cmd)
  | error
  | return_

/-- How a command ends: the next one follows, or the function returns, or an error is raised. -/
inductive End where
  | next
  | ret
  | raise
  deriving DecidableEq, Repr

def raises (r : Option Text × State) : End × State :=
  (if r.1.isSome then .raise else .next, r.2)

namespace State

def depth (st : State) : ℕ := st.vars.localvarStack.length

def pushlocalvars (st : State) : State :=
  { st with vars := Bootsh.pushlocalvars st.vars, hooks := st.hooks.step .pushlocalvars }

/-- One turn of the loop of `poplocalvars`. -/
def poplocalvar (lvp : Localvar) (h : SavedFixed [lvp]) (st : State) : Except Text State :=
  match hok : Bootsh.poplocalvar lvp st.vars with
  | .error msg => .error msg
  | .ok vars => st.settle vars (st.hooks.poplocalvar h hok)

def poplocalvarList : (l : List Localvar) → SavedFixed l → State → Option Text × State
  | [], _, st => (none, st)
  | lvp :: next, h, st =>
    match st.poplocalvar lvp h.head with
    | .error msg => (some msg, st)
    | .ok st => poplocalvarList next h.tail st

def poplocalvars (st : State) : Option Text × State :=
  match hstack : st.vars.localvarStack with
  | [] => (none, st)
  | ll :: next =>
    poplocalvarList ll (st.hooks.saved (hstack ▸ List.mem_cons_self))
      { st with
        vars := { st.vars with localvarStack := next }
        hooks := ⟨st.hooks.func, st.hooks.fixed,
          fun hl => st.hooks.saved (hstack ▸ List.mem_cons_of_mem _ hl)⟩ }

/-- `poplocalvars`, `n` times. -/
def popScopes : ℕ → State → Option Text × State
  | 0, st => (none, st)
  | n + 1, st =>
    match st.poplocalvars with
    | (some msg, st) => (some msg, st)
    | (none, st) => popScopes n st

/-- `unwindlocalvars`, for the number of scopes that are to stay. -/
def unwindlocalvars (stop : ℕ) (st : State) : Option Text × State :=
  st.popScopes (st.depth - stop)

end State

/-! ### Calls -/

def evalfun (body : State → End × State) (args : List Text) (st : State) : End × State :=
  let r := body (st.withParam (setparam args))
  (if r.1 = .ret then .next else r.1, r.2.withParam st.shellparam)

/-- The call up to the end of `evalfun`: the assignments before it, in its scope, and the body. -/
def callBody (body : State → End × State) (assigns args : List Text) (st : State) : End × State :=
  match st.pushlocalvars.varOps (assigns.map .prefixAssign) with
  | (some _, st) => (.raise, st)
  | (none, st) => evalfun body args st

/-- What `evalcommand` does where no error leaves it. -/
def unwound (stop : ℕ) (r : End × State) : End × State :=
  match r.2.unwindlocalvars stop with
  | (some _, st) => (.raise, st)
  | (none, st) => (r.1, st)

mutual

def exec : Cmd → State → End × State
  | .set argv, st => (.next, st.withParam (setparam argv))
  | .shift n, st => raises (st.shiftcmd n)
  | .getopts optstr optvar args, st => (.next, (getoptscmd optstr optvar args st).2)
  | .var op _, st => raises (st.varOp op)
  | .call assigns args body, st =>
    let r := callBody (execList body) assigns args st
    if r.1 = .raise then r else unwound st.depth r
  | .caught body, st =>
    let r := execList body st.pushlocalvars
    unwound st.depth (if r.1 = .raise then .next else r.1, r.2)
  | .error, st => (.raise, st)
  | .return_, st => (.ret, st)

def execList : List Cmd → State → End × State
  | [], st => (.next, st)
  | c :: cs, st =>
    let r := exec c st
    if r.1 = .next then execList cs r.2 else r

end

end Bootsh.Options
