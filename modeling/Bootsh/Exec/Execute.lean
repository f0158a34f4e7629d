import Bootsh.Exec.Shell

/-! How commands are executed and described: `shellexec` and `describe_command` of `exec.c`. -/
namespace Bootsh

variable {Dir Func : Type}

/-! ### `shellexec` -/

/-- A program: one that is built in, which runs in the process of the shell, or a file, with
the index of the path entry that it comes from. -/
inductive Program where
  | applet (name : Text)
  | file (cmd : Text) (idx : Option ℕ)
  deriving DecidableEq, Repr

/-- The name of a program, or of its file. -/
def Program.text : Program → Text
  | .applet name => name
  | .file cmd _ => cmd

/-- How `shellexec` ends: with a program, or with the exit status of the error. `overlap` is
where `argv[0]` has become the block that `padvance` writes, so that the name is copied onto
itself. -/
inductive Execution where
  | started (prog : Program)
  | failed (exerrno : ℕ)
  | overlap
  deriving DecidableEq, Repr

def pathBshell : Text := "/bin/sh".toList

/-- How `tryexec` ends. After `noShell`, the name of the file is in `argv[0]`. -/
inductive Attempt where
  | started
  | failed (errno : Errno)
  | noShell (errno : Errno)
  deriving DecidableEq, Repr

/-- `tryexec`: a file that is no program is given to the shell. -/
def tryexec (files : Files Dir) (cwd : Dir) (cmd : Text) : Attempt :=
  match files.execve cwd cmd with
  | .ok _ => .started
  | .error .enoexec =>
    match files.execve cwd pathBshell with
    | .ok _ => .started
    | .error errno => .noShell errno
  | .error errno => .failed errno

/-- The exit status for an error. -/
def exerrno : Errno → ℕ
  | .eloop | .enametoolong | .enoent | .enotdir => 127
  | .eacces | .enoexec | .other _ => 126

/-- The loop over the path; `i` is where it stands. -/
def execPath (files : Files Dir) (cwd : Dir) (idx : ℕ) :
    ℕ → Errno → List Expansion → Execution
  | _, e, [] => .failed (exerrno e)
  | i, e, a :: rest =>
    if idx ≤ i ∧ a.pathopt = none then
      match tryexec files cwd a.fullname with
      | .started => .started (.file a.fullname (some i))
      | .noShell _ => .overlap
      | .failed errno =>
        execPath files cwd idx (i + 1) (if errno = .enoent ∨ errno = .enotdir then e else errno) rest
    else execPath files cwd idx (i + 1) e rest

/-- The command runs in the process of the shell. -/
def World.runsInProcess (w : World Dir Func) (name : Text) : Bool :=
  w.toyFind name && w.toyRuns name || mains.contains name

/-- `shellexec`, for the command `argv0`. -/
def shellexec (w : World Dir Func) (cwd : Dir) (argv0 path : Text) (idx : Option ℕ) : Execution :=
  if w.runsInProcess argv0 then .started (.applet argv0)
  else if '/' ∈ argv0 then
    match tryexec w.files cwd argv0 with
    | .started => .started (.file argv0 none)
    | .failed e | .noShell e => .failed (exerrno e)
  else execPath w.files cwd (idx.getD 0) 0 .enoent (expansions argv0 1 path)

/-! ### `describe_command` -/

def parsekwd : List Text :=
  ["!".toList, "case".toList, "do".toList, "done".toList, "elif".toList, "else".toList,
    "esac".toList, "fi".toList, "for".toList, "if".toList, "in".toList, "then".toList,
    "until".toList, "while".toList, ['{'], ['}']]

inductive Description where
  | keyword
  | alias (val : Text)
  /-- `p` is printed for a program; `tracked` if it comes from the table. -/
  | program (p : Text) (tracked : Bool)
  | function
  | builtin (special : Bool)
  | notFound
  deriving DecidableEq, Repr

/-- What is printed. -/
def Description.print (command : Text) (verbose : Bool) : Description → Text
  | .keyword => command ++ if verbose then " is a shell keyword\n".toList else ['\n']
  | .alias val =>
    if verbose then command ++ " is an alias for ".toList ++ val ++ ['\n']
    else "alias ".toList ++ singleQuote command ++ '=' :: singleQuote val ++ ['\n']
  | .program p tracked =>
    if verbose then
      command ++ " is".toList ++ (if tracked then " a tracked alias for".toList else []) ++
        ' ' :: p ++ ['\n']
    else p ++ ['\n']
  | .function => command ++ if verbose then " is a shell function\n".toList else ['\n']
  | .builtin special =>
    command ++ if verbose then
      " is a ".toList ++ (if special then "special ".toList else []) ++ "shell builtin\n".toList
    else ['\n']
  | .notFound => if verbose then command ++ ": not found\n".toList else []

/-- The name at an index of the path; beyond the end, the last one stays in the block. -/
def entryName (path command : Text) (j : ℕ) : Text :=
  let l := expansions command 1 path
  (((l[j]?).or l.getLast?).map Expansion.fullname).getD command

/-- The description for an entry. -/
def describeEntry (path command : Text) (tracked : Bool) : CmdEntry Func → Description
  | .normal none => .program command tracked
  | .normal (some j) => .program (entryName path command j) tracked
  | .function _ => .function
  | .builtin cmd => .builtin cmd.special
  | .unknown => .notFound

/-- `describe_command`, with an error that `find_command` may raise, and the table it leaves.
`path` is `none` for the standard search path. -/
def describeCommand (w : World Dir Func) (aliases : Text → Option Text) (command : Text)
    (path : Option Text) (st : Shell Dir Func) : Except Text Description × CmdTable Func :=
  if parsekwd.contains command then (.ok .keyword, st.cmdtable)
  else match aliases command with
    | some val => (.ok (.alias val), st.cmdtable)
    | none =>
      match if path.isNone then st.cmdtable.find command else none with
      | some cmdp =>
        (.ok (describeEntry st.pathval command true cmdp.param.entry), st.cmdtable)
      | none =>
        let found := st.findCommand w command { abs := true } ((path.map .other).getD .pathval)
        (found.entry.map (describeEntry (path.getD st.pathval) command false), found.table)

end Bootsh
