import Bootsh.Var.Watched
import Bootsh.Exec.Command

/-!
The shell as far as commands and directories go: the variables with their hooks, the
command table, and the directory of the process with what `cd.c` knows of it.
-/
namespace Bootsh

/-- `curdir` and `physdir` are `none` where they are `nullstr`. The hooks of the variables
have run, so that none is left in `called`. -/
structure Shell (Dir Func : Type) where
  vars : Vars
  cmdtable : CmdTable Func
  builtinloc : Option ℕ
  cwd : Dir
  curdir : Option AbsPath
  physdir : Option AbsPath
  hooks : vars.Hooks
  quiet : vars.called = []

/-- The text of `curdir` or `physdir`. -/
def dirText (dir : Option AbsPath) : Text := (dir.map AbsPath.text).getD []

namespace Shell

variable {Dir Func : Type}

def changepath (new : Text) (st : Shell Dir Func) : Shell Dir Func :=
  { st with
    builtinloc := changepathLoc 0 new
    cmdtable := clearcmdentry (changepathLoc 0 new) st.cmdtable }

/-- Of the hooks, `changepath` is the one that touches this part of the shell. -/
def callHook (call : VarFunc × Text) (st : Shell Dir Func) : Shell Dir Func :=
  match call.1 with
  | .changepath => st.changepath call.2
  | .changemail | .getoptsreset => st

/-- Replace the variables and run the hooks that the replacement called, the oldest first.
They do not read the variables, so that they may run after it. -/
def withVars (vars : Vars) (h : vars.Hooks) (st : Shell Dir Func) : Shell Dir Func :=
  vars.called.foldr callHook
    { st with vars := { vars with called := [] }, hooks := h.uncalled, quiet := vars.called_nil }

/-- An operation on the variables. -/
def varOp (op : VarOp) (st : Shell Dir Func) : Option Text × Shell Dir Func :=
  ((st.vars.step op).1, st.withVars (st.vars.step op).2 (st.hooks.step op))

/-- The value of `PATH`; of an unset one, the null string. It is never the buffer of
`LINENO`. -/
def pathval (st : Shell Dir Func) : Text :=
  match st.vars.pathValue with
  | some (.text s) => s
  | some .linenovar | none => []

/-- A call of `find_command` in this state. -/
def findCommand (w : World Dir Func) (name : Text) (act : Act) (path : CmdPath)
    (st : Shell Dir Func) : Found Func :=
  Bootsh.findCommand w st.cwd st.pathval st.builtinloc name act path st.cmdtable

end Shell
end Bootsh
