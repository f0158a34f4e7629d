import Bootsh.Exec.Shell

/-! The builtin `cd`, from `cd.c`. -/
namespace Bootsh

/-! ### Options -/

/-- The letters of one option argument, as `nextopt("LP")` hands them out. -/
def cdoptLetters (physical : Bool) (j : Char) : Text → Except Text (Bool × Char)
  | [] => .ok (physical, j)
  | c :: p =>
    if c = 'L' ∨ c = 'P' then cdoptLetters (if c ≠ j then !physical else physical) c p
    else .error ("Illegal option -".toList ++ [c])

def cdoptArgs (physical : Bool) (j : Char) : List Text → Except Text (Bool × List Text)
  | ('-' :: c :: p) :: args =>
    if c = '-' ∧ p = [] then .ok (physical, args)
    else do
      let (physical, j) ← cdoptLetters physical j (c :: p)
      cdoptArgs physical j args
  | args => .ok (physical, args)

/-- `cdopt`: whether `CD_PHYSICAL` is set, and the other arguments. -/
def cdopt (args : List Text) : Except Text (Bool × List Text) := cdoptArgs false 'L' args

/-! ### The logical name of a directory -/

/-- `strtok` with the delimiter `/`. -/
def strtok (s : Text) : List Text := (s.splitOn '/').filter (· ≠ [])

/-- Go back to the last `/` in the buffer, but not before its first `lim` characters. The
buffer is kept with its last character first. -/
def backUp (lim : ℕ) : Text → Text
  | [] => []
  | c :: new =>
    if lim < (c :: new).length then if new.head? = some '/' then new else backUp lim new
    else c :: new

def putComponent (lim : ℕ) (new p : Text) : Text :=
  if p = ['.', '.'] then backUp lim new
  else if p = ['.'] then new
  else '/' :: (p.reverse ++ new)

/-- The buffer before the components of `dir` are put, and `lim`. -/
def updatepwdStart (curdir : Option AbsPath) (dir : Text) : Option (Text × ℕ) :=
  if dir.head? = some '/' then
    some (if dir[1]? = some '/' ∧ dir[2]? ≠ some '/' then (['/', '/'], 2) else (['/'], 1))
  else curdir.map fun p =>
    let new := if p.text.getLast? = some '/' then p.text else p.text ++ ['/']
    (new.reverse, if 1 < new.length ∧ new[1]? = some '/' then 2 else 1)

def updatepwdText (lim : ℕ) (new dir : Text) : Text :=
  let new := (strtok dir).foldl (putComponent lim) new
  if lim < new.length then new.tail else new

/-- The buffer starts with a slash that stays. -/
structure PwdBuffer (lim : ℕ) (new : Text) : Prop where
  pos : 1 ≤ lim
  le : lim ≤ new.length
  slash : new.getLast? = some '/'

theorem PwdBuffer.tail {lim : ℕ} {c : Char} {new : Text} (h : PwdBuffer lim (c :: new))
    (hlt : lim < (c :: new).length) : PwdBuffer lim new := by
  obtain ⟨hpos, -, hslash⟩ := h
  have hlen : lim ≤ new.length := Nat.lt_succ_iff.1 hlt
  refine ⟨hpos, hlen, ?_⟩
  cases new with
  | nil =>
    simp at hlen
    omega
  | cons d new => rwa [List.getLast?_cons_cons] at hslash

theorem PwdBuffer.backUp {lim : ℕ} {new : Text} (h : PwdBuffer lim new) :
    PwdBuffer lim (backUp lim new) := by
  induction new with
  | nil => exact h
  | cons c new ih =>
    rw [Bootsh.backUp]
    split
    case isTrue hlt =>
      split
      · exact h.tail hlt
      · exact ih (h.tail hlt)
    case isFalse => exact h

theorem PwdBuffer.append {lim : ℕ} {new : Text} (h : PwdBuffer lim new) (s : Text) :
    PwdBuffer lim (s ++ new) := by
  refine ⟨h.pos, ?_, ?_⟩
  · rw [List.length_append]
    exact h.le.trans (Nat.le_add_left _ _)
  · rw [List.getLast?_append, h.slash, Option.some_or]

theorem PwdBuffer.putComponent {lim : ℕ} {new : Text} (h : PwdBuffer lim new) (p : Text) :
    PwdBuffer lim (putComponent lim new p) := by
  unfold Bootsh.putComponent
  split
  · exact h.backUp
  · split
    · exact h
    · exact h.append ('/' :: p.reverse)

theorem PwdBuffer.start {curdir : Option AbsPath} {dir new : Text} {lim : ℕ}
    (h : updatepwdStart curdir dir = some (new, lim)) : PwdBuffer lim new := by
  unfold updatepwdStart at h
  split at h
  · split at h
    · obtain ⟨rfl, rfl⟩ := Prod.mk.inj (Option.some.inj h)
      exact ⟨by simp, by simp, by simp⟩
    · obtain ⟨rfl, rfl⟩ := Prod.mk.inj (Option.some.inj h)
      exact ⟨by simp, by simp, by simp⟩
  · obtain ⟨p, -, h⟩ := Option.map_eq_some_iff.1 h
    obtain ⟨rfl, rfl⟩ := Prod.mk.inj h
    have habs : ∀ s, (p.text ++ s).head? = some '/' := by
      intro s
      rw [List.head?_append, p.abs, Option.some_or]
    have hnew : (if p.text.getLast? = some '/' then p.text else p.text ++ ['/']).head? = some '/' := by
      split
      · exact p.abs
      · exact habs _
    generalize (if p.text.getLast? = some '/' then p.text else p.text ++ ['/']) = new at hnew
    refine ⟨?_, ?_, by rwa [List.getLast?_reverse]⟩
    · split <;> simp
    · cases new with
      | nil => cases hnew
      | cons c new =>
        split
        case isTrue hlt =>
          rw [List.length_reverse]
          exact hlt.1
        case isFalse => simp

theorem updatepwdText_abs {lim : ℕ} {new dir : Text} (h : PwdBuffer lim new) :
    (updatepwdText lim new dir).reverse.head? = some '/' := by
  rw [List.head?_reverse]
  have hfold : PwdBuffer lim ((strtok dir).foldl (putComponent lim) new) :=
    List.foldlRecOn (strtok dir) (putComponent lim) h fun _ h p _ => h.putComponent p
  unfold updatepwdText
  dsimp only
  split
  case isTrue hlt =>
    cases hnew : (strtok dir).foldl (putComponent lim) new with
    | nil =>
      rw [hnew] at hlt
      simp at hlt
    | cons c new' =>
      rw [hnew] at hlt hfold
      exact (hfold.tail hlt).slash
  case isFalse => exact hfold.slash

/-- `updatepwd`; `none` where the current directory is not known. -/
def updatepwd (curdir : Option AbsPath) (dir : Text) : Option AbsPath :=
  match h : updatepwdStart curdir dir with
  | none => none
  | some (new, lim) => some ⟨(updatepwdText lim new dir).reverse, updatepwdText_abs (PwdBuffer.start h)⟩

/-! ### Changing the directory -/

section
variable {Dir Func : Type}

def pwdName : Text := "PWD".toList

def oldpwdName : Text := "OLDPWD".toList

/-- `setpwd`, where `val` is not `curdir` itself. -/
def setpwd (files : Files Dir) (val : Option AbsPath) (setold : Bool) (st : Shell Dir Func) :
    Option Text × Shell Dir Func :=
  match if setold then st.varOp (.setvar oldpwdName (some (dirText st.curdir)) VFlags.vexport)
    else (none, st) with
  | (some msg, st) => (some msg, st)
  | (none, st) =>
    let (dir, physdir) := match val with
      | none => (files.getcwd st.cwd, files.getcwd st.cwd)
      | some val => (some val, none)
    { st with curdir := dir, physdir := physdir }.varOp
      (.setvar pwdName (some (dirText dir)) VFlags.vexport)

/-- How `docd` ends: with what `chdir` returned, or with an error. -/
inductive CdEnd where
  | done
  | failed (e : Errno)
  | raised (msg : Text)
  deriving DecidableEq, Repr

/-- The name that `docd` sets `curdir` to, if it does not have to ask for it. -/
def cdDir (dest : Text) (physical : Bool) (st : Shell Dir Func) : Option AbsPath :=
  if physical then none else updatepwd st.curdir dest

def docd (files : Files Dir) (dest : Text) (physical : Bool) (st : Shell Dir Func) :
    CdEnd × Shell Dir Func :=
  let dir := cdDir dest physical st
  match files.chdir st.cwd ((dir.map AbsPath.text).getD dest) with
  | .error e => (.failed e, st)
  | .ok cwd =>
    match setpwd files dir true { st with cwd := cwd } with
    | (some msg, st) => (.raised msg, st)
    | (none, st) => (.done, { st with cmdtable := hashcd st.builtinloc st.cmdtable })

/-- The label `dotdot`: the name starts with the component `.` or `..`. -/
def startsWithDot : Text → Bool
  | ['.'] | ['.', '.'] => true
  | '.' :: '/' :: _ | '.' :: '.' :: '/' :: _ => true
  | _ => false

/-- The loop over `CDPATH`: the directory, and whether its name is printed. -/
def cdSearch (files : Files Dir) (cwd : Dir) (dest : Text) (print : Bool) :
    List Expansion → Text × Bool
  | [] => (dest, print)
  | a :: rest =>
    match files.stat cwd a.fullname with
    | .ok statb =>
      if statb.isDir then (a.fullname, print || (a.start.head?.any (· ≠ ':')))
      else cdSearch files cwd dest print rest
    | .error _ => cdSearch files cwd dest print rest

/-- What `cdcmd` hands to `docd`: the directory, `CD_PHYSICAL` and `CD_PRINT`, and the
directory that an error names. -/
structure CdTarget where
  path : Text
  physical : Bool
  print : Bool
  dest : Text
  deriving DecidableEq, Repr

def cdTarget (files : Files Dir) (args : List Text) (st : Shell Dir Func) :
    Except Text CdTarget := do
  let (physical, args) ← cdopt args
  let lookup (name : String) := (lookupvar name.toList st.vars).1
  let (dest, print) := match args with
    | [] => (lookup "HOME", false)
    | dest :: _ => if dest = ['-'] then (lookup "OLDPWD", true) else (some dest, false)
  let dest := dest.getD []
  if dest.head? = some '/' || startsWithDot dest then return ⟨dest, physical, print, dest⟩
  else
    let dest := if dest = [] then ['.'] else dest
    let found := match lookup "CDPATH" with
      | none => (dest, print)
      | some path => cdSearch files st.cwd dest print (expansions dest 0 path)
    return ⟨found.1, physical, found.2, dest⟩

/-- `cdcmd`: the error it raises or what it prints, and the shell. -/
def cdcmd (files : Files Dir) (args : List Text) (st : Shell Dir Func) :
    Except Text Text × Shell Dir Func :=
  match cdTarget files args st with
  | .error msg => (.error msg, st)
  | .ok target =>
    match docd files target.path target.physical st with
    | (.failed _, st) => (.error ("can't cd to ".toList ++ target.dest), st)
    | (.raised msg, st) => (.error msg, st)
    | (.done, st) => (.ok (if target.print then dirText st.curdir ++ ['\n'] else []), st)

/-- The shell as `INIT` leaves it. The directory in `PWD` counts if it is the one the
process is in, which `samedir` tells. -/
def initShell (files : Files Dir) (root : Bool) (environ : List Text) (ppid : Text) (cwd : Dir)
    (samedir : AbsPath → Bool) : Shell Dir Func :=
  let vars := initVars root environ ppid
  let start : Shell Dir Func :=
    { vars := { vars with called := [] }, cmdtable := HashTable.empty, builtinloc := none, cwd
      curdir := none, physdir := none
      hooks := (Vars.initVars_hooks root environ ppid).same rfl rfl, quiet := rfl }
  let st := start.withVars vars (Vars.initVars_hooks root environ ppid)
  let p := (lookupvar pwdName st.vars).1.bind fun p =>
    if h : p.head? = some '/' then if samedir ⟨p, h⟩ then some ⟨p, h⟩ else none else none
  (setpwd files p false st).2

end
end Bootsh
