import Bootsh.Lib.HashTable
import Bootsh.Exec.Path

/-!
The command table and the search for commands, from `exec.c`. What the kernel answers
and what the built-in applets are is given from outside; the file system does not
change while a command is looked up.
-/
namespace Bootsh

/-! ### Files -/

inductive Errno where
  | enoent | enotdir | eacces | eloop | enametoolong | enoexec
  | other (n : ℕ)
  deriving DecidableEq, Repr

/-- What `stat64` tells: the type, and whether all three execute bits are set. -/
structure Stat where
  isReg : Bool
  isDir : Bool
  execAll : Bool
  deriving DecidableEq, Repr

/-- An absolute pathname. -/
@[ext] structure AbsPath where
  text : Text
  abs : text.head? = some '/'
  deriving DecidableEq

theorem root_abs : "/".toList.head? = some '/' := rfl

/-- The file system, as seen from a working directory. An absolute pathname leads to the
same file from everywhere, and names the directory that it leads to. -/
structure Files (Dir : Type) where
  stat : Dir → Text → Except Errno Stat
  /-- `faccessat` with `X_OK`. -/
  access : Dir → Text → Bool
  execve : Dir → Text → Except Errno Unit
  chdir : Dir → Text → Except Errno Dir
  getcwd : Dir → Option AbsPath
  names : AbsPath → Dir → Prop
  stat_abs : ∀ d d' (p : AbsPath), stat d p.text = stat d' p.text
  access_abs : ∀ d d' (p : AbsPath), access d p.text = access d' p.text
  chdir_names : ∀ {d d'} {p : AbsPath}, chdir d p.text = .ok d' → names p d'
  getcwd_names : ∀ {d p}, getcwd d = some p → names p d

/-- `test_exec`. -/
def testExec {Dir : Type} (files : Files Dir) (cwd : Dir) (fullname : Text) (statb : Stat) : Bool :=
  statb.isReg && (statb.execAll || files.access cwd fullname)

/-! ### Builtins -/

/-- `struct builtincmd`; the function is told by the name. -/
structure Builtin where
  name : Text
  special : Bool
  regular : Bool
  assign : Bool
  deriving DecidableEq, Repr

/-- A line of `builtins.def`, with the options as `mkbuiltins` reads them. -/
def builtinDef (opt name : String) : Builtin where
  name := name.toList
  special := opt.toList.contains 's'
  regular := opt.toList.contains 's' || opt.toList.contains 'u'
  assign := opt.toList.contains 'a'

def builtincmd : List Builtin :=
  [builtinDef "s" ".", builtinDef "s" ":", builtinDef "" "[", builtinDef "au" "alias",
    builtinDef "u" "bg", builtinDef "s" "break", builtinDef "u" "cd", builtinDef "u" "chdir",
    builtinDef "u" "command", builtinDef "s" "continue", builtinDef "" "echo",
    builtinDef "ns" "eval", builtinDef "s" "exec", builtinDef "s" "exit", builtinDef "as" "export",
    builtinDef "u" "false", builtinDef "u" "fg", builtinDef "u" "getopts", builtinDef "u" "hash",
    builtinDef "u" "jobs", builtinDef "u" "kill", builtinDef "as" "local", builtinDef "" "printf",
    builtinDef "u" "pwd", builtinDef "u" "read", builtinDef "as" "readonly",
    builtinDef "s" "return", builtinDef "s" "set", builtinDef "s" "shift", builtinDef "" "test",
    builtinDef "s" "times", builtinDef "s" "trap", builtinDef "u" "true", builtinDef "u" "type",
    builtinDef "u" "ulimit", builtinDef "u" "umask", builtinDef "u" "unalias",
    builtinDef "s" "unset", builtinDef "u" "wait"]

def findBuiltin (name : Text) : Option Builtin := builtincmd.find? fun b => b.name == name

/-! ### The table -/

/-- `cmdtype` and `param` of a table entry: the index of a path entry, a function or a
builtin. -/
inductive CmdParam (Func : Type) where
  | normal (index : ℕ)
  | function (func : Func)
  | builtin (cmd : Builtin)
  deriving DecidableEq, Repr

structure TblEntry (Func : Type) where
  param : CmdParam Func
  rehash : Bool
  deriving DecidableEq, Repr

def cmdtablesize : ℕ := 31

def hashCommand (name : Text) : Fin cmdtablesize :=
  ⟨((name.headD '\x00').toNat * 16 + (name.map Char.toNat).sum) % 2 ^ 15 % cmdtablesize,
    Nat.mod_lt _ (by decide)⟩

abbrev CmdTable (Func : Type) := HashTable Text (TblEntry Func) cmdtablesize hashCommand

/-- Builtins are entered under their names, and no function is marked. -/
structure TableWf {Func : Type} (table : CmdTable Func) : Prop where
  builtin : ∀ {name bcmd rehash}, table.find name = some ⟨.builtin bcmd, rehash⟩ →
    findBuiltin name = some bcmd
  function : ∀ {name func rehash}, table.find name = some ⟨.function func, rehash⟩ → rehash = false

/-- `struct cmdentry`; the index -1 is `none`. -/
inductive CmdEntry (Func : Type) where
  | unknown
  | normal (index : Option ℕ)
  | function (func : Func)
  | builtin (cmd : Builtin)
  deriving DecidableEq, Repr

/-- The flags `DO_ERR`, `DO_ABS`, `DO_NOFUNC`, `DO_ALTPATH` and `DO_REGBLTIN`. -/
structure Act where
  err : Bool := false
  abs : Bool := false
  nofunc : Bool := false
  altpath : Bool := false
  regbltin : Bool := false
  deriving DecidableEq, Repr

/-- The path that is searched: `pathval()` itself, or another string. -/
inductive CmdPath where
  | pathval
  | other (path : Text)
  deriving DecidableEq, Repr

/-- The string that is searched, where `PATH` has the value `pathval`. -/
def CmdPath.text (pathval : Text) : CmdPath → Text
  | .pathval => pathval
  | .other path => path

/-- What is outside the shell: the files, the applets of toybox, and what reading a
file of functions does to the table. -/
structure World (Dir Func : Type) where
  files : Files Dir
  toyFind : Text → Bool
  /-- `toy_exec` runs the applet, and does not return. -/
  toyRuns : Text → Bool
  readcmdfile : Text → CmdTable Func → CmdTable Func
  toyFind_slash : ∀ {name}, toyFind name → '/' ∉ name
  readcmdfile_wf : ∀ {fullname table}, TableWf table → TableWf (readcmdfile fullname table)

/-- The names of the other programs that are built in. -/
def mains : List Text :=
  ["cc".toList, "c99".toList, "ld".toList, "ar".toList, "samu".toList, "ninja".toList]

/-- The command is an applet, or one of the other programs that are built in. -/
def World.inProcess {Dir Func : Type} (w : World Dir Func) (name : Text) : Bool :=
  w.toyFind name || mains.contains name

section
variable {Func : Type}

def CmdParam.entry : CmdParam Func → CmdEntry Func
  | .normal index => .normal (some index)
  | .function func => .function func
  | .builtin cmd => .builtin cmd

/-- `act & bit & DO_REGBLTIN`. -/
def CmdParam.notRegular (act : Act) : CmdParam Func → Bool
  | .normal _ => act.regbltin
  | .function _ => false
  | .builtin cmd => !cmd.regular && act.regbltin

/-- `act & bit`, for the answers that only this search may not use. -/
def CmdParam.passedOver (act : Act) : CmdParam Func → Bool
  | .normal _ => act.altpath
  | .function _ => act.nofunc
  | .builtin _ => false

/-- The entries that a change of the directory or of the path can make wrong. -/
def CmdParam.volatile (builtinloc : Option ℕ) : CmdParam Func → Bool
  | .normal _ => true
  | .function _ => false
  | .builtin cmd => !cmd.regular && decide (0 < builtinloc.getD 0)

def hashcd (builtinloc : Option ℕ) (table : CmdTable Func) : CmdTable Func :=
  table.update fun _ e => some { e with rehash := e.rehash || e.param.volatile builtinloc }

def clearcmdentry (builtinloc : Option ℕ) (table : CmdTable Func) : CmdTable Func :=
  table.update fun _ e => if e.param.volatile builtinloc then none else some e

/-- The index of the first entry that starts with `%builtin`. -/
def changepathLoc (idx : ℕ) (new : Text) : Option ℕ :=
  if "%builtin".toList.isPrefixOf new then some idx
  else match _h : afterColon (new.dropWhile (· ≠ ':')) with
    | none => none
    | some rest => changepathLoc (idx + 1) rest
termination_by new.length
decreasing_by exact (afterColon_length _h).trans_le (List.dropWhile_sublist _).length_le

def defun (name : Text) (func : Func) (table : CmdTable Func) : CmdTable Func :=
  table.put name ⟨.function func, false⟩

def unsetfunc (name : Text) (table : CmdTable Func) : CmdTable Func :=
  match table.find name with
  | some ⟨.function _, _⟩ => table.erase name
  | _ => table

/-! ### `find_command` -/

/-- How the search of a path ends: at the entry that was found before, at a program, at a
file of functions, or nowhere. -/
inductive Search where
  | unchanged
  | found (idx : ℕ)
  | funcfile (fullname : Text)
  | failed (e : Errno)
  deriving DecidableEq, Repr

variable {Dir : Type}

/-- The loop over the path. A name that has a builtin does not come here, so that `%builtin`
is passed over. -/
def searchPath (files : Files Dir) (cwd : Dir) (nofunc : Bool) (prev : Option ℕ) :
    ℕ → Errno → List Expansion → Search
  | _, e, [] => .failed e
  | idx, e, a :: rest =>
    if a.pathopt.isSome && (a.pathopt.bind List.head? == some 'b' || nofunc) then
      searchPath files cwd nofunc prev (idx + 1) e rest
    else if a.fullname.head? = some '/' ∧ prev.any (fun prev => idx ≤ prev) then
      if prev = some idx then .unchanged
      else searchPath files cwd nofunc prev (idx + 1) e rest
    else
      match files.stat cwd a.fullname with
      | .error errno =>
        searchPath files cwd nofunc prev (idx + 1)
          (if errno = .enoent ∨ errno = .enotdir then e else errno) rest
      | .ok statb =>
        if a.pathopt.isSome then .funcfile a.fullname
        else if !testExec files cwd a.fullname statb then
          searchPath files cwd nofunc prev (idx + 1) .eacces rest
        else .found idx

/-- What a call of `find_command` gives: the entry or the error it raises, the table, and
the error that `sh_warnx` reports for the name. -/
structure Found (Func : Type) where
  entry : Except Text (CmdEntry Func)
  table : CmdTable Func
  warned : Option Errno := none

/-- The text of the error for a file that does not define its function. -/
def notDefinedError (name fullname : Text) : Text :=
  name ++ " not defined in ".toList ++ fullname

/-- `find_command` from where the answer is not in the table. `cmdp` is the entry to be
rehashed. -/
def findAfresh (w : World Dir Func) (cwd : Dir) (path : Text) (builtinloc : Option ℕ)
    (name : Text) (act : Act) (updatetbl : Bool) (cmdp : Option (TblEntry Func))
    (table : CmdTable Func) : Found Func :=
  match findBuiltin name with
  | some bcmd =>
    ⟨.ok (.builtin bcmd), if updatetbl then table.put name ⟨.builtin bcmd, false⟩ else table, none⟩
  | none =>
    if act.regbltin then ⟨.ok .unknown, table, none⟩
    else
      let prev := cmdp.bind fun cmdp => match cmdp.param with
        | .normal index => some index
        | .builtin _ => builtinloc
        | .function _ => none
      match searchPath w.files cwd act.nofunc prev 0 .enoent (expansions name 1 path), cmdp with
      | .unchanged, some cmdp => ⟨.ok cmdp.param.entry, table.put name { cmdp with rehash := false }, none⟩
      | .unchanged, none => ⟨.ok .unknown, table, none⟩
      | .found idx, _ =>
        ⟨.ok (.normal (some idx)),
          if updatetbl then table.put name ⟨.normal idx, false⟩ else table, none⟩
      | .funcfile fullname, _ =>
        let table := w.readcmdfile fullname table
        match table.find name with
        | some ⟨.function func, _⟩ =>
          ⟨.ok (.function func), table.put name ⟨.function func, false⟩, none⟩
        | _ => ⟨.error (notDefinedError name fullname), table, none⟩
      | .failed e, _ =>
        if w.inProcess name then ⟨.ok (.normal none), table, none⟩
        else ⟨.ok .unknown, if cmdp.isSome && updatetbl then table.erase name else table,
          if act.err then some e else none⟩

/-- `find_command` for a name with a slash. -/
def findSlash (files : Files Dir) (cwd : Dir) (name : Text) (act : Act) : CmdEntry Func :=
  if act.abs then
    match files.stat cwd name with
    | .error _ => .unknown
    | .ok statb => if testExec files cwd name statb then .normal none else .unknown
  else .normal none

/-- `find_command`, where `PATH` has the value `pathval`. -/
def findCommand (w : World Dir Func) (cwd : Dir) (pathval : Text) (builtinloc : Option ℕ)
    (name : Text) (act : Act) (path : CmdPath) (table : CmdTable Func) : Found Func :=
  if '/' ∈ name then ⟨.ok (findSlash w.files cwd name act), table, none⟩
  else
    let updatetbl := path = .pathval
    let act := if updatetbl then act else { act with altpath := true }
    let path := path.text pathval
    match table.find name with
    | none => findAfresh w cwd path builtinloc name act updatetbl none table
    | some cmdp =>
      if cmdp.param.notRegular act then ⟨.ok .unknown, table, none⟩
      else if cmdp.param.passedOver act then
        findAfresh w cwd path builtinloc name act false none table
      else if !cmdp.rehash then ⟨.ok cmdp.param.entry, table, none⟩
      else findAfresh w cwd path builtinloc name act updatetbl (some cmdp) table

end
end Bootsh
