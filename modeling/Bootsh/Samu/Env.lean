import Bootsh.Lib.Upsert
import Bootsh.Samu.Scan

/-!
Environments of build manifests and the evaluation of strings in them, `env.c`. A tree of `tree.c`
is the list of its keys and values.
-/
namespace Bootsh.Samu.Manifest

/-- The variables of an environment, and its rules by their numbers. -/
structure Environment where
  bindings : List (Text × Text)
  rules : List (Text × ℕ)
  deriving DecidableEq, Repr

/-- The number of an environment and those of its parents, outward. -/
abbrev EnvRef := List ℕ

section

variable {κ α : Type} [DecidableEq κ] (tree : List (κ × α)) (key : κ)

def treefind : Option α := tree.lookup key

def treeinsert (value : α) : List (κ × α) := Upsert.upsert Prod.fst (key, value) tree

variable {tree key} {k : κ} {value : α}

theorem treefind_cons :
    treefind ((k, value) :: tree) key = if key = k then some value else treefind tree key := by
  rw [treefind, List.lookup_cons]
  split
  case h_1 h => rw [if_pos (by simpa using h)]
  case h_2 h =>
    rw [if_neg (by simpa using h)]
    rfl

theorem treefind_treeinsert :
    treefind (treeinsert tree k value) key = if key = k then some value else treefind tree key := by
  split
  case isTrue h =>
    subst h
    exact Upsert.lookup_upsert_self
  case isFalse h => exact Upsert.lookup_upsert_ne h

end

section

variable (envs : List Environment) (env : EnvRef)

def environment (i : ℕ) : Environment := envs.getD i ⟨[], []⟩

def envvar (var : Text) : Option Text :=
  env.findSome? fun i => treefind (environment envs i).bindings var

def envrule (name : Text) : Option ℕ :=
  env.findSome? fun i => treefind (environment envs i).rules name

/-- The texts of the parts, one behind the other. -/
def merge (str : EvalString) : Text := str.flatMap fun p => p.str.getD []

/-- The part with the value of its variable. -/
def Part.eval (lookup : Text → Option Text) (p : Part) : Part :=
  match p.var with
  | some var => { p with str := lookup var }
  | none => p

def enveval (str : EvalString) : Text := merge (str.map (Part.eval (envvar envs env)))

end

/-- `envaddvar` to the environment with the number `i` -/
def envaddvar (i : ℕ) (var val : Text) (envs : List Environment) : List Environment :=
  envs.modify i fun env => { env with bindings := treeinsert env.bindings var val }

/-- No environment, if the rule is there already. -/
def envaddrule (i : ℕ) (name : Text) (rule : ℕ) (envs : List Environment) :
    Option (List Environment) :=
  match treefind (environment envs i).rules name with
  | some _ => none
  | none => some (envs.modify i fun env => { env with rules := treeinsert env.rules name rule })

end Bootsh.Samu.Manifest
