import Bootsh.Lib.Descriptors
import Mathlib.Data.Fintype.Basic

/-!
`redir.c`: redirections and their undoing, and the descriptors of the processes
that `evalsubshell` and `evalpipe` of `eval.c` fork. What the kernel answers is
part of the redirection.
-/
namespace Bootsh

/-- The flags with which a file is opened. -/
inductive OpenFlags where
  | rdonly | rdwrCreat | wronlyCreatExcl | wronly | wronlyCreatTrunc | wronlyCreatAppend
  deriving DecidableEq, Repr

inductive FileType where
  | from | fromto | to | clobber | append
  deriving DecidableEq, Repr

/-- The file behind `expfname`: whether it is a regular one (`stat`), what opening it
gives, and whether that is a regular file (`fstat`). -/
structure NamedFile (α : Type) where
  stat : Option Bool
  opens : OpenFlags → Option α
  isreg : α → Bool

/-- A redirection. `dupfd` is -1 in `>&-`; a here-document has the ends of its pipe,
whether it is longer than `PIPESIZE`, and whether the fork succeeds then. -/
inductive RedirNode (α : Type) where
  | file (type : FileType) (fd : Fin 10) (name : NamedFile α)
  | dup (fd : Fin 10) (dupfd : Option (Fin 10))
  | here (fd : Fin 10) (pipe : α × α) (long forks : Bool)

def RedirNode.fd {α : Type} : RedirNode α → Fin 10
  | .file _ fd _ => fd
  | .dup fd _ => fd
  | .here fd _ _ _ => fd

/-- `EMPTY`, `CLOSED` or a descriptor. -/
inductive Renamed where
  | empty
  | closed
  | saved (fd : ℕ)
  deriving DecidableEq, Repr

/-- `struct redirtab` without its link. -/
abbrev Redirtab := Fin 10 → Renamed

structure RedirState (α : Type) where
  fds : FdTable α
  redirlist : List Redirtab
  closedRedirs : Fin 10 → Bool

variable {α : Type}

def RedirState.close (fd : ℕ) (st : RedirState α) : RedirState α :=
  { st with fds := st.fds.close fd }

/-- The bit is cleared if the new descriptor is not negative. -/
def updateClosedRedirs (fd : Fin 10) (nonneg : Bool) (st : RedirState α) : Bool × RedirState α :=
  (st.closedRedirs fd, { st with closedRedirs := Function.update st.closedRedirs fd (!nonneg) })

/-- What `openredirect` returns: -2, -1 or a descriptor. -/
inductive NewFd where
  | same
  | closed
  | fd (n : ℕ)
  deriving DecidableEq, Repr

/-- `sh_open`; `none` is a negative result. -/
def shOpen (name : NamedFile α) (flags : OpenFlags) (t : FdTable α) :
    Option (ℕ × FdTable α) :=
  match name.opens flags with
  | none => none
  | some d => t.openFile d

/-- `do_open`, with the error of `sh_open`. -/
def doOpen (name : NamedFile α) (flags : OpenFlags) (t : FdTable α) :
    Option NewFd × FdTable α :=
  match shOpen name flags t with
  | none => (none, t)
  | some (f, t) => (some (.fd f), t)

/-- The file for `>` in noclobber mode. -/
def openNoclobber (name : NamedFile α) (t : FdTable α) : Option NewFd × FdTable α :=
  match name.stat with
  | none => doOpen name .wronlyCreatExcl t
  | some true => (none, t)
  | some false =>
    match shOpen name .wronly t with
    | none => (none, t)
    | some (f, t) => if (t.file f).any name.isreg then (none, t.close f) else (some (.fd f), t)

/-- `openhere`. Where the fork fails, the pipe stays open. -/
def openhere (pipe : α × α) (long forks : Bool) (t : FdTable α) : Option NewFd × FdTable α :=
  match t.pipe pipe.1 pipe.2 with
  | none => (none, t)
  | some ((pip₀, pip₁), t) => if long ∧ ¬ forks then (none, t) else (some (.fd pip₀), t.close pip₁)

/-- `openredirect`; without a result, `sh_error` has been called. -/
def openredirect (cflag : Bool) (redir : RedirNode α) (t : FdTable α) : Option NewFd × FdTable α :=
  match redir with
  | .file .from _ name => doOpen name .rdonly t
  | .file .fromto _ name => doOpen name .rdwrCreat t
  | .file .to _ name => if cflag then openNoclobber name t else doOpen name .wronlyCreatTrunc t
  | .file .clobber _ name => doOpen name .wronlyCreatTrunc t
  | .file .append _ name => doOpen name .wronlyCreatAppend t
  | .dup fd dupfd =>
    match dupfd with
    | none => (some .closed, t)
    | some f => if f = fd then (some .same, t) else (some (.fd f), t)
  | .here _ pipe long forks => openhere pipe long forks t

/-- `dupredirect`, and whether it returns. Only the error of a `dup2` for `<&` and
`>&` is reported. -/
def dupredirect (redir : RedirNode α) (f : NewFd) (t : FdTable α) : Bool × FdTable α :=
  match redir, f with
  | .dup fd _, .fd f =>
    match t.dup2 f fd with
    | none => (false, t)
    | some t => (true, t)
  | .dup fd _, _ => (true, t.close fd)
  | redir, .fd f => (true, ((t.dup2 f redir.fd).getD t).close f)
  | _, _ => (true, t)

/-- `savefd(from, from)`; without a result, `sh_error` has been called. -/
def savefd (fd : ℕ) (t : FdTable α) : Option Renamed × FdTable α :=
  match t.dupfd fd 10 with
  | .ok (newfd, t) => (some (.saved newfd), t.close fd)
  | .error .badf => (some .closed, t)
  | .error .mfile => (none, t.close fd)

/-- A turn of the loop of `redirect` after `openredirect`, where `sv` is the table
for `REDIR_PUSH`. -/
def redirectPushed (redir : RedirNode α) (newfd : NewFd) (sv : Redirtab) (rest : List Redirtab)
    (st : RedirState α) : Bool × RedirState α :=
  let fd := redir.fd
  let (closed, st) := updateClosedRedirs fd (newfd ≠ .closed) st
  if sv fd = .empty then
    if newfd ≠ .fd fd ∧ closed = false then
      match savefd fd st.fds with
      | (none, fds) => (false, { st with fds })
      | (some r, fds) =>
        let st := { st with fds, redirlist := Function.update sv fd r :: rest }
        if newfd = .closed then (true, st)
        else
          let (ok, fds) := dupredirect redir newfd st.fds
          (ok, { st with fds })
    else
      let st := { st with redirlist := Function.update sv fd .closed :: rest }
      if newfd = .fd fd then (true, st)
      else
        let (ok, fds) := dupredirect redir newfd st.fds
        (ok, { st with fds })
  else if newfd = .fd fd then (true, st)
  else
    let (ok, fds) := dupredirect redir newfd st.fds
    (ok, { st with fds })

/-- A turn of the loop of `redirect`, and whether it comes to its end. -/
def redirectOne (cflag push : Bool) (redir : RedirNode α) (st : RedirState α) :
    Bool × RedirState α :=
  match openredirect cflag redir st.fds with
  | (none, fds) => (false, { st with fds })
  | (some .same, fds) => (true, { st with fds })
  | (some newfd, fds) =>
    match push, st.redirlist with
    | true, sv :: rest => redirectPushed redir newfd sv rest { st with fds }
    | _, _ =>
      if newfd = .fd redir.fd then (true, { st with fds })
      else
        let (ok, fds) := dupredirect redir newfd fds
        (ok, { st with fds })

/-- `redirect`; `push` is the flag `REDIR_PUSH`. An error ends it. -/
def redirect (cflag push : Bool) : List (RedirNode α) → RedirState α → RedirState α
  | [], st => st
  | redir :: rest, st =>
    match redirectOne cflag push redir st with
    | (true, st) => redirect cflag push rest st
    | (false, st) => st

def pushredir (redir : List (RedirNode α)) (st : RedirState α) : RedirState α :=
  match redir with
  | [] => st
  | _ :: _ => { st with redirlist := (fun _ => .empty) :: st.redirlist }

/-- A turn of the loop of `popredir`. -/
def popOne (drop : Bool) (rp : Redirtab) (st : RedirState α) (i : Fin 10) : RedirState α :=
  match rp i with
  | .empty => st
  | .closed =>
    if drop then st
    else
      let (closed, st) := updateClosedRedirs i false st
      if closed then st else st.close i
  | .saved fd =>
    if drop then st.close fd
    else
      let (_, st) := updateClosedRedirs i true st
      { st with fds := ((st.fds.dup2 fd i).getD st.fds).close fd }

/-- `popredir` -/
def popredir (drop : Bool) (st : RedirState α) : RedirState α :=
  match st.redirlist with
  | [] => st
  | rp :: next =>
    { (List.finRange 10).foldl (popOne drop rp) st with redirlist := next }

def forkreset (st : RedirState α) : RedirState α := { st with redirlist := [] }

/-- The process of `evalsubshell`. -/
def evalsubshell (cflag : Bool) (redir : List (RedirNode α)) (st : RedirState α) : RedirState α :=
  redirect cflag false redir (forkreset st)

/-- The process does not read the pipe it writes to. -/
def closeReadEnd (pip : Option (ℕ × ℕ)) (t : FdTable α) : FdTable α :=
  match pip with
  | some (pip₀, _) => t.close pip₀
  | none => t

/-- The previous pipe becomes the standard input. -/
def dupStdin (prevfd : Option ℕ) (t : FdTable α) : FdTable α :=
  match prevfd with
  | some prevfd => if 0 < prevfd then ((t.dup2 prevfd 0).getD t).close prevfd else t
  | none => t

/-- The new pipe becomes the standard output. -/
def dupStdout (pip : Option (ℕ × ℕ)) (t : FdTable α) : FdTable α :=
  match pip with
  | some (_, pip₁) => if 1 < pip₁ then ((t.dup2 pip₁ 1).getD t).close pip₁ else t
  | none => t

/-- What a process in a pipeline does with the pipes. -/
def pipeChild (prevfd : Option ℕ) (pip : Option (ℕ × ℕ)) (t : FdTable α) : FdTable α :=
  dupStdout pip (dupStdin prevfd (closeReadEnd pip t))

/-- The descriptors of the `k`-th process of `evalpipe`, counted from 0, in a pipeline
with these pipes. If a pipe cannot be made there is none; the shell goes on with the
error. -/
def evalpipe (k : ℕ) (prevfd : Option ℕ) (pipes : List (α × α)) (st : RedirState α) :
    RedirState α :=
  match pipes with
  | [] => { forkreset st with fds := pipeChild prevfd none st.fds }
  | ends :: pipes =>
    match st.fds.pipe ends.1 ends.2 with
    | none => prevfd.elim st st.close
    | some ((pip₀, pip₁), fds) =>
      match k with
      | 0 => { forkreset st with fds := pipeChild prevfd (some (pip₀, pip₁)) fds }
      | k + 1 =>
        let fds := prevfd.elim fds fds.close
        evalpipe k (some pip₀) pipes { st with fds := fds.close pip₁ }

end Bootsh
