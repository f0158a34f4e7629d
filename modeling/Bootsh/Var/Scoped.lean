import Bootsh.Lib.Run
import Bootsh.Lib.Binding
import Bootsh.Var.Var

/-!
What the variable store is for: names bound to entries under dynamic scoping. A
function call adds a frame, `local` binds in it, and the return drops it.
-/
namespace Bootsh

open VFlags

/-- The state of a variable; one that was never mentioned is `absent`. -/
structure Entry where
  value : Option Val
  exported : Bool
  readonly : Bool
  deriving DecidableEq, Repr

@[simps] def Entry.absent : Entry := ⟨none, false, false⟩

/-- The operations on the store. -/
inductive VarOp where
  | setvar (name : Text) (val : Option Text) (flags : VFlags)
  | setvareq (s : Text) (flags : VFlags)
  | unset (name : Text)
  | exportArg (name : Text)
  | readonlyArg (name : Text)
  | localArg (name : Text)
  /-- An assignment before a command that has its own scope. -/
  | prefixAssign (s : Text)
  | pushlocalvars
  | poplocalvars
  | setAflag (b : Bool)
  | setLineno (n : ℤ)
  | lookupvar (name : Text)
  deriving DecidableEq, Repr

/-- Run an operation; the output is its error. -/
def Vars.step (st : Vars) : VarOp → VarResult
  | .setvar name val flags => orRaise (setvar name val flags st) st
  | .setvareq s flags => orRaise (setvareq s flags st) st
  | .unset name => orRaise (unsetvar name st) st
  | .exportArg name => orRaise (exportArg vexport name st) st
  | .readonlyArg name => orRaise (exportArg vreadonly name st) st
  | .localArg name => Bootsh.localArg name st
  | .prefixAssign s => mklocal s vexport st
  | .pushlocalvars => (none, Bootsh.pushlocalvars st)
  | .poplocalvars => Bootsh.poplocalvars st
  | .setAflag b => (none, { st with aflag := b })
  | .setLineno n => (none, { st with lineno := n })
  | .lookupvar name => (none, (Bootsh.lookupvar name st).2)

/-! ### The abstract store -/

structure Scoped where
  vars : Binding.Deep Text Entry
  /-- The options, of which only `-a` matters here, are local in the same way. -/
  opts : Binding.Deep Unit Bool
  lineno : ℤ

namespace Scoped

def entry (sc : Scoped) (name : Text) : Entry := sc.vars.lookup name

def aflag (sc : Scoped) : Bool := sc.opts.lookup ()

/-- Assign to a variable, or declare it without a value if that gives it an
attribute, or else remove it. Only a value is exported by `-a`. -/
def newEntry (e : Entry) (value : Option Val) (flags : VFlags) (aflag : Bool) : Entry :=
  if value.isNone && !flags.exported && !flags.readonly && !flags.strfixed then .absent
  else ⟨value, e.exported || flags.exported || (value.isSome && aflag), flags.readonly⟩

def assign (sc : Scoped) (name : Text) (value : Option Val) (flags : VFlags) :
    Option Text × Scoped :=
  if (sc.entry name).readonly then (some (readonlyError name), sc)
  else (none, { sc with
    vars := sc.vars.assign name (newEntry (sc.entry name) value flags sc.aflag) })

/-- Assign under a name that has to be checked. -/
def set (sc : Scoped) (name : Text) (value : Option Val) (flags : VFlags) : Option Text × Scoped :=
  if !isGoodName name then (some (badNameError name), sc) else sc.assign name value flags

/-- `export` or `readonly`. -/
def mark (sc : Scoped) (flag : VFlags) (s : Text) : Option Text × Scoped :=
  match varValue s with
  | some v => sc.set (varName s) (some (.text v)) flag
  | none =>
    if !isGoodName s then (some (badNameError s), sc)
    else
      let e := sc.entry s
      let e := { e with
        exported := e.exported || flag.exported, readonly := e.readonly || flag.readonly }
      (none, { sc with vars := sc.vars.assign s e })

/-- `local`, or an assignment with its own scope. -/
def declare (sc : Scoped) (s : Text) (flags : VFlags) : Option Text × Scoped :=
  if s = ['-'] then (none, { sc with opts := sc.opts.declare () })
  else if !isGoodName (varName s) then (some (badNameError (varName s)), sc)
  else
    let local_ := { sc with vars := sc.vars.declare (varName s) }
    match varValue s with
    | none => (none, local_)
    | some v =>
      match local_.assign (varName s) (some (.text v)) flags with
      | (some msg, _) => (some msg, sc)
      | (none, sc) => (none, sc)

def step (sc : Scoped) : VarOp → Option Text × Scoped
  | .setvar name val flags => sc.set (varName name) (val.map .text) flags
  | .setvareq s flags => sc.set (varName s) ((varValue s).map .text) flags
  | .unset name => sc.set (varName name) none zero
  | .exportArg name => sc.mark vexport name
  | .readonlyArg name => sc.mark vreadonly name
  | .localArg name =>
    if sc.vars.frames = [] then (some "not in a function".toList, sc) else sc.declare name zero
  | .prefixAssign s => sc.declare s vexport
  | .pushlocalvars => (none, { sc with vars := sc.vars.push, opts := sc.opts.push })
  | .poplocalvars => (none, { sc with vars := sc.vars.pop, opts := sc.opts.pop })
  | .setAflag b => (none, { sc with opts := sc.opts.assign () b })
  | .setLineno n => (none, { sc with lineno := n })
  | .lookupvar _ => (none, sc)

end Scoped
end Bootsh
