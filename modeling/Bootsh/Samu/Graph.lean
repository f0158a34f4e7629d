import Mathlib.Data.List.Basic
import Bootsh.Samu.Env

/-!
The graph of a manifest, `graph.c`, with its rules and pools, and what `edgevar` of `env.c` gives
for a variable of an edge. Nodes, edges, rules and pools have numbers in place of pointers.
-/
namespace Bootsh.Samu.Manifest

/-- How the program ends early: with an error of the scanner, with another error, or because it
reads outside of a string. `endless` is left over for a recursion that does not end. -/
inductive Stop where
  | scan (msg : String)
  | fatal (msg : String)
  | outside
  | endless
  deriving DecidableEq, Repr

/-- What a variable of a rule is bound to, and what marks it while it is expanded. -/
inductive Value where
  | str (s : EvalString)
  | cycle
  deriving DecidableEq, Repr

abbrev Bindings := List (Text × Value)

structure Rule where
  name : Text
  bindings : Bindings

structure Pool where
  name : Text
  maxjobs : BitVec 32

/-- A file, the edge that makes it, and the edges that read it. -/
structure Node where
  path : Text
  gen : Option ℕ
  use : List ℕ

/-- A build statement. Of the outputs the first `outimpidx` are explicit ones, of the inputs the
first `inimpidx`, and those from `inorderidx` on are only for the order. -/
structure Edge where
  rule : ℕ
  pool : Option ℕ
  env : EnvRef
  outs : List ℕ
  ins : List ℕ
  outimpidx : ℕ
  inimpidx : ℕ
  inorderidx : ℕ

structure World where
  envs : List Environment
  rules : List Rule
  pools : List Pool
  nodes : List Node
  edges : List Edge
  deftarg : List ℕ

/-! ### Paths -/

/-- `struct string`: the length, and the bytes that are written. -/
structure Str where
  n : ℕ
  s : Text
  deriving DecidableEq, Repr

/-- The bytes of a path that the shell takes as they are. -/
def isPlain (c : Char) : Bool := isAlnum c || "_+-./".toList.contains c

def quoted : Text → Text
  | [] => []
  | c :: s => if c = '\'' then '\'' :: '\\' :: '\'' :: '\'' :: quoted s else c :: quoted s

/-- The path of a node as a word of the shell. -/
def shellpath (path : Text) : Str :=
  if path.all isPlain then ⟨path.length, path⟩
  else ⟨path.length + 2 + 3 * path.count '\'', '\'' :: quoted path ++ ['\'']⟩

def nodepath (path : Text) (escape : Bool) : Text := if escape then (shellpath path).s else path

def pathlist (paths : List Text) (sep : Char) (escape : Bool) : Option Text :=
  match paths with
  | [] => none
  | [path] => some (nodepath path escape)
  | _ => some ((paths.flatMap fun path => nodepath path escape ++ [sep]).dropLast)

/-! ### Variables of an edge -/

namespace World

variable (w : World) (e : Edge) (escape : Bool)

def path (n : ℕ) : Text := (w.nodes.getD n ⟨[], none, []⟩).path

/-- The variables that are lists of paths. -/
def pathvar (var : Text) : Option (Option Text) :=
  if var = "in".toList then
    some (pathlist ((e.ins.take e.inimpidx).map w.path) ' ' escape)
  else if var = "in_newline".toList then
    some (pathlist ((e.ins.take e.inimpidx).map w.path) '\n' escape)
  else if var = "out".toList then
    some (pathlist ((e.outs.take e.outimpidx).map w.path) ' ' escape)
  else none

/-- The bindings of the edge itself. -/
def edgebinding (var : Text) : Option Text :=
  e.env.head?.bind fun i => treefind (environment w.envs i).bindings var

/-- The loop over the parts of a string, with `lookup` for the variables. -/
def expandparts (lookup : Bindings → Text → Except Stop (Option Text × Bindings)) :
    Bindings → EvalString → Except Stop (EvalString × Bindings)
  | b, [] => .ok ([], b)
  | b, p :: str =>
    match p.var with
    | some var => do
      let (val, b) ← lookup b var
      let (str, b) ← expandparts lookup b str
      return ({ p with str := val } :: str, b)
    | none => do
      let (str, b) ← expandparts lookup b str
      return (p :: str, b)

/-- `edgevar` on the bindings of the edge's rule, which it marks and restores. -/
def edgevar : ℕ → Bindings → Text → Except Stop (Option Text × Bindings)
  | 0, _, _ => .error .endless
  | fuel + 1, b, var =>
    match pathvar w e escape var with
    | some val => .ok (val, b)
    | none =>
      match edgebinding w e var with
      | some val => .ok (some val, b)
      | none =>
        match treefind b var with
        | none => .ok (envvar w.envs e.env.tail var, b)
        | some .cycle =>
          .error (.fatal ("cycle in rule variable involving '" ++ String.ofList var ++ "'"))
        | some (.str str) => do
          let (str, b) ← expandparts (edgevar fuel) (treeinsert b var .cycle) str
          return (some (merge str), treeinsert b var (.str str))

end World

end Bootsh.Samu.Manifest
