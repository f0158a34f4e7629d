import Bootsh.MyString
import Bootsh.Lib.HashTable
import Mathlib.Tactic.Simps.Basic

/-!
The variable store, from `var.c`. A variable's text `name=value` is its key in
`vartab` and its value, which is absent where the text is a bare name. The hook
`func` of a variable is recorded when it is called, with its argument.
-/
namespace Bootsh

/-- The flags of `var.h`. -/
@[ext] structure VFlags where
  exported : Bool := false
  readonly : Bool := false
  strfixed : Bool := false
  textfixed : Bool := false
  stack : Bool := false
  unset : Bool := false
  nofunc : Bool := false
  nosave : Bool := false
  deriving DecidableEq, Repr

namespace VFlags

@[simps] def zero : VFlags := {}
@[simps] def vexport : VFlags := { exported := true }
@[simps] def vreadonly : VFlags := { readonly := true }
@[simps] def vstrfixed : VFlags := { strfixed := true }
@[simps] def vtextfixed : VFlags := { textfixed := true }
@[simps] def vstack : VFlags := { stack := true }
@[simps] def vunset : VFlags := { unset := true }
@[simps] def vnosave : VFlags := { nosave := true }

@[simps] def or (a b : VFlags) : VFlags where
  exported := a.exported || b.exported
  readonly := a.readonly || b.readonly
  strfixed := a.strfixed || b.strfixed
  textfixed := a.textfixed || b.textfixed
  stack := a.stack || b.stack
  unset := a.unset || b.unset
  nofunc := a.nofunc || b.nofunc
  nosave := a.nosave || b.nosave

@[simps] def and (a b : VFlags) : VFlags where
  exported := a.exported && b.exported
  readonly := a.readonly && b.readonly
  strfixed := a.strfixed && b.strfixed
  textfixed := a.textfixed && b.textfixed
  stack := a.stack && b.stack
  unset := a.unset && b.unset
  nofunc := a.nofunc && b.nofunc
  nosave := a.nosave && b.nosave

@[simps] def compl (a : VFlags) : VFlags where
  exported := !a.exported
  readonly := !a.readonly
  strfixed := !a.strfixed
  textfixed := !a.textfixed
  stack := !a.stack
  unset := !a.unset
  nofunc := !a.nofunc
  nosave := !a.nosave

instance : OrOp VFlags := ⟨or⟩
instance : AndOp VFlags := ⟨and⟩
instance : Complement VFlags := ⟨compl⟩

@[simp] theorem or_def (a b : VFlags) : a ||| b = a.or b := rfl
@[simp] theorem and_def (a b : VFlags) : a &&& b = a.and b := rfl
@[simp] theorem compl_def (a : VFlags) : ~~~a = a.compl := rfl

end VFlags

open VFlags

/-- The hooks of `varinit`. -/
inductive VarFunc where
  | changemail
  | changepath
  | getoptsreset
  deriving DecidableEq, Repr

/-- What follows the `=` of a variable's text; `linenovar` is the text in that buffer. -/
inductive Val where
  | text (s : Text)
  | linenovar
  deriving DecidableEq, Repr

/-- `struct var`, without its name. -/
structure Var where
  value : Option Val
  flags : VFlags
  func : Option VarFunc
  deriving DecidableEq, Repr

/-- `struct localvar`: the saved text and flags of a variable, or for the name `-`
the saved options. A variable that did not exist has the flags `VUNSET`. -/
inductive Localvar where
  | options (aflag : Bool)
  | var (name : Text) (value : Option Val) (flags : VFlags)
  deriving DecidableEq, Repr

def vtabsize : ℕ := 39

/-- The name at the front of a text `name=value`. -/
def varName (s : Text) : Text := s.takeWhile (· ≠ '=')

/-- The value of a text, if it has one. -/
def varValue (s : Text) : Option Text := (s.dropWhile (· ≠ '=')).tail?

def hashvar (name : Text) : Fin vtabsize :=
  ⟨((name.headD '\x00').toNat * 16 + (name.map Char.toNat).sum) % 2 ^ 32 % vtabsize,
    Nat.mod_lt _ (by decide)⟩

structure Vars where
  vartab : HashTable Text Var vtabsize hashvar
  localvarStack : List (List Localvar)
  aflag : Bool
  lineno : ℤ
  /-- The buffer `linenovar`, after the `=`. -/
  linenovar : Text
  /-- The calls of hooks, the latest first. -/
  called : List (VarFunc × Text)

def fmtInt (n : ℤ) : Text :=
  if n < 0 then '-' :: Nat.toDigits 10 n.natAbs else Nat.toDigits 10 n.natAbs

def Val.render (buffer : Text) : Val → Text
  | .text s => s
  | .linenovar => buffer

def endofname (s : Text) : ℕ :=
  match s with
  | [] => 0
  | c :: cs => if isName c then (cs.takeWhile isInName).length + 1 else 0

/-- The whole text is a name. -/
def isGoodName (s : Text) : Bool := decide (s ≠ []) && decide (endofname s = s.length)

namespace Vars

def findvar (name : Text) (st : Vars) : Option Var := st.vartab.find name

def store (name : Text) (vp : Var) (st : Vars) : Vars :=
  { st with vartab := st.vartab.put name vp }

def delete (name : Text) (st : Vars) : Vars := { st with vartab := st.vartab.erase name }

/-- `(*vp->func)(varnull(text))`. -/
def callFunc (func : Option VarFunc) (value : Option Val) (st : Vars) : Vars :=
  match func with
  | none => st
  | some f => { st with called := (f, (value.map (Val.render st.linenovar)).getD []) :: st.called }

end Vars

open Vars

/-- `(flags & (VEXPORT|VREADONLY|VSTRFIXED|VUNSET)) == VUNSET`. -/
def VFlags.unsets (flags : VFlags) : Bool :=
  flags &&& (vexport ||| vreadonly ||| vstrfixed ||| vunset) == vunset

@[simp] theorem VFlags.unsets_eq (flags : VFlags) :
    flags.unsets = (flags.unset && !flags.exported && !flags.readonly && !flags.strfixed) := by
  obtain ⟨e, r, s, t, k, u, f, n⟩ := flags
  revert e r s t k u f n
  decide

/-- The text of the error for a readonly variable. -/
def readonlyError (name : Text) : Text := name ++ ": is read only".toList

def badNameError (name : Text) : Text := name ++ ": bad variable name".toList

/-- `setvareq` on the two parts of its text. -/
def setvareqVal (name : Text) (value : Option Val) (flags : VFlags) (st : Vars) :
    Except Text Vars :=
  let flags := if st.aflag then flags ||| vexport else flags
  match st.findvar name with
  | some vp =>
    if vp.flags.readonly then .error (readonlyError name)
    else
      let st := if flags.nofunc then st else st.callFunc vp.func value
      if !flags.unsets then
        .ok (st.store name
          ⟨value, flags ||| (vp.flags &&& ~~~(vtextfixed ||| vstack ||| vnosave ||| vunset)), vp.func⟩)
      else if vp.flags.strfixed then
        .ok (st.store name ⟨value, flags ||| (vp.flags &&& vstrfixed), vp.func⟩)
      else .ok (st.delete name)
  | none => if flags.unsets then .ok st else .ok (st.store name ⟨value, flags, none⟩)

def setvareq (s : Text) (flags : VFlags) (st : Vars) : Except Text Vars :=
  setvareqVal (varName s) ((varValue s).map .text) flags st

def setvar (name : Text) (val : Option Text) (flags : VFlags) (st : Vars) : Except Text Vars :=
  if !isGoodName (varName name) then .error (badNameError (varName name))
  else
    let flags := if val.isNone then flags ||| vunset else flags
    setvareqVal (varName name) (val.map .text) (flags ||| vnosave) st

def unsetvar (s : Text) (st : Vars) : Except Text Vars := setvar s none zero st

/-- The value, and the store with the buffer of `LINENO` brought up to date. -/
def lookupvar (name : Text) (st : Vars) : Option Text × Vars :=
  match st.findvar name with
  | none => (none, st)
  | some vp =>
    if vp.flags.unset then (none, st)
    else
      let st := if vp.value = some .linenovar then { st with linenovar := fmtInt st.lineno } else st
      (vp.value.map (Val.render st.linenovar), st)

/-- The text of a variable. -/
def varText (buffer : Text) (name : Text) (value : Option Val) : Text :=
  match value with
  | none => name
  | some v => name ++ '=' :: v.render buffer

/-- The texts of the variables with all flags of `on` and none of `off`. -/
def listvars (on off : VFlags) (st : Vars) : List Text :=
  (st.vartab.entries.filter fun p => p.2.flags &&& (on ||| off) == on).map
    fun p => varText st.linenovar p.1 p.2.value

/-- The value of a (signed) `char`. -/
def charVal (c : Char) : ℤ := if isNegative c then c.toNat - 256 else c.toNat

/-- What `varcmp` subtracts where two texts differ. -/
def varcmpEnd : Text → ℤ
  | [] => 0
  | c :: _ => if c = '=' then 0 else charVal c

def varcmp : Text → Text → ℤ
  | c :: p, d :: q =>
    if c = d then if c = '=' then 0 else varcmp p q else varcmpEnd (c :: p) - varcmpEnd (d :: q)
  | p, q => varcmpEnd p - varcmpEnd q

/-- One line of `showvars`. -/
def showvar (pre : Text) (t : Text) : Text :=
  pre ++ (if pre = [] then [] else [' ']) ++ varName t ++
    (match varValue t with
      | none => []
      | some v => '=' :: singleQuote v) ++ ['\n']

def showvars (pre : Text) (on off : VFlags) (st : Vars) : Text :=
  ((listvars on off st).mergeSort fun s t => varcmp s t ≤ 0).flatMap (showvar pre)

/-- One argument of `export` or `readonly`. -/
def exportArg (flag : VFlags) (name : Text) (st : Vars) : Except Text Vars :=
  match varValue name with
  | some p => setvar name (some p) flag st
  | none =>
    match st.findvar name with
    | some vp => .ok (st.store name { vp with flags := vp.flags ||| flag })
    | none => setvar name none flag st

/-- A call that may raise an error, and the store it leaves behind. -/
abbrev VarResult := Option Text × Vars

/-- A call that changes nothing if it raises an error. -/
def orRaise (r : Except Text Vars) (st : Vars) : VarResult :=
  match r with
  | .ok st' => (none, st')
  | .error msg => (some msg, st)

@[simp] theorem orRaise_ok (st st' : Vars) : orRaise (.ok st') st = (none, st') := rfl

@[simp] theorem orRaise_error (msg : Text) (st : Vars) :
    orRaise (.error msg) st = (some msg, st) := rfl

/-- Link `lvp` into the innermost list. -/
def linkLocal (lvp : Localvar) (st : Vars) : Vars :=
  match st.localvarStack with
  | [] => st
  | l :: ls => { st with localvarStack := (lvp :: l) :: ls }

/-- `localvar_stack` is not empty; an error leaves the new `lvp` unlinked. -/
def mklocal (name : Text) (flags : VFlags) (st : Vars) : VarResult :=
  if name = ['-'] then (none, linkLocal (.options st.aflag) st)
  else
    match st.findvar (varName name) with
    | none =>
      match if (varValue name).isSome then setvareq name (vstrfixed ||| flags) st
        else setvar name none (vstrfixed ||| flags) st with
      | .error msg => (some msg, st)
      | .ok st => (none, linkLocal (.var (varName name) none vunset) st)
    | some vp =>
      let lvp := .var (varName name) vp.value vp.flags
      let st := st.store (varName name) { vp with flags := vp.flags ||| (vstrfixed ||| vtextfixed) }
      if (varValue name).isSome then
        match setvareq name flags st with
        | .error msg => (some msg, st)
        | .ok st => (none, linkLocal lvp st)
      else (none, linkLocal lvp st)

/-- One argument of `local`. -/
def localArg (name : Text) (st : Vars) : VarResult :=
  if st.localvarStack = [] then (some "not in a function".toList, st) else mklocal name zero st

/-- One turn of the loop of `poplocalvars`. -/
def poplocalvar (lvp : Localvar) (st : Vars) : Except Text Vars :=
  match lvp with
  | .options aflag => .ok { st with aflag }
  | .var name value flags =>
    match st.findvar name with
    | none => .ok st
    | some vp =>
      if flags = vunset then
        unsetvar name (st.store name { vp with flags := vp.flags &&& ~~~(vstrfixed ||| vreadonly) })
      else .ok ((st.callFunc vp.func value).store name ⟨value, flags, vp.func⟩)

/-- An error in one turn leaves the others out. -/
def poplocalvarList : List Localvar → Vars → VarResult
  | [], st => (none, st)
  | lvp :: next, st =>
    match poplocalvar lvp st with
    | .error msg => (some msg, st)
    | .ok st => poplocalvarList next st

def poplocalvars (st : Vars) : VarResult :=
  match st.localvarStack with
  | [] => (none, st)
  | ll :: next => poplocalvarList ll { st with localvarStack := next }

def pushlocalvars (st : Vars) : Vars := { st with localvarStack := [] :: st.localvarStack }

/-! ### The initial store -/

def defifsvar : Text := "IFS= \t\n".toList

def defpathvar : Text :=
  "PATH=/usr/local/sbin:/usr/local/bin:/usr/sbin:/usr/bin:/sbin:/bin".toList

def defoptindvar : Text := "OPTIND=1".toList

/-- The variables of `varinit`; `PS1` depends on the user. -/
def varinit (root : Bool) : List (Text × Var) :=
  let fixed (s : Text) (func : Option VarFunc) : Text × Var :=
    (varName s, ⟨(varValue s).map .text, vstrfixed ||| vtextfixed, func⟩)
  let unset (name : Text) (func : Option VarFunc) : Text × Var :=
    (name, ⟨none, vstrfixed ||| vtextfixed ||| vunset, func⟩)
  [fixed defifsvar none, unset "MAIL".toList (some .changemail),
    unset "MAILPATH".toList (some .changemail), fixed defpathvar (some .changepath),
    fixed (if root then "PS1=# ".toList else "PS1=$ ".toList) none, fixed "PS2=> ".toList none,
    fixed "PS4=+ ".toList none, fixed defoptindvar (some .getoptsreset),
    ("LINENO".toList, ⟨some .linenovar, vstrfixed ||| vtextfixed, none⟩)]

/-- Every variable of `varinit` is new, so that its place in the chain is all that
differs from putting it in front. -/
def initvar (root : Bool) : Vars where
  vartab := (varinit root).foldr (fun p t => t.put p.1 p.2) HashTable.empty
  localvarStack := []
  aflag := false
  lineno := 0
  linenovar := []
  called := []

/-- `setvareq` where no variable is readonly. -/
def importVar (s : Text) (flags : VFlags) (st : Vars) : Vars := (orRaise (setvareq s flags st) st).2

/-- One string of the environment. -/
def importEnv (st : Vars) (s : Text) : Vars :=
  if isGoodName (varName s) && (varValue s).isSome then importVar s (vexport ||| vtextfixed) st
  else st

/-- The part of `INIT` that fills the store, for the environment `environ`. -/
def initVars (root : Bool) (environ : List Text) (ppid : Text) : Vars :=
  let st := environ.foldl importEnv (initvar root)
  let st := importVar defifsvar vtextfixed st
  let st := importVar defoptindvar vtextfixed st
  importVar ("PPID=".toList ++ ppid) vtextfixed st

end Bootsh
