import Bootsh.Samu.Parse

/-!
The tools of `tool.c` that walk the graph. A walk has fuel for its depth, and stops as `endless`
when it is used up. What a tool prints is the list of its lines.
-/
namespace Bootsh.Samu.Manifest

namespace World

variable (w : World)

/-- The edge has the rule `phony`, which is the first one. -/
def phony (e : ℕ) : Bool := (w.edge e).rule == 0

def rulename (e : ℕ) : Text := (w.rules.getD (w.edge e).rule ⟨[], []⟩).name

/-- The edges in the order of the list `alledges`, the last one first. -/
def alledges : List ℕ := (List.range w.edges.length).reverse

def nuse (n : ℕ) : ℕ := (w.nodes.getD n ⟨[], none, []⟩).use.length

def pathof (n : ℕ) : Text := cstr (w.path n)

end World

/-! ### clean -/

section

variable (w : World) (removable : Text → Bool)

/-- Whether nothing failed, and the paths that `remove` was called for. -/
abbrev Cleaned := Bool × List Text

def cleantarget : ℕ → ℕ → Except Stop Cleaned
  | 0, _ => .error .endless
  | fuel + 1, n =>
    match w.gen n with
    | none => .ok (true, [])
    | some e =>
      if w.phony e then .ok (true, [])
      else do
        let below ← (w.edge e).ins.mapM (cleantarget fuel)
        return (removable (w.pathof n) && below.all Prod.fst, w.pathof n :: below.flatMap Prod.snd)

/-- A target that is unknown is an error, but the others are cleaned. -/
def cleanarg (fuel : ℕ) (target : Text) : Except Stop Cleaned :=
  match w.nodeget target with
  | none => .ok (false, [])
  | some n => cleantarget w removable fuel n

/-- `clean` with targets -/
def clean (targets : List Text) (fuel : ℕ) : Except Stop Cleaned := do
  let cleaned ← targets.mapM (cleanarg w removable fuel)
  return (cleaned.all Prod.fst, cleaned.flatMap Prod.snd)

end

/-! ### commands and graph -/

/-- The edges with `FLAG_WORK`, and what is printed. -/
structure Walk where
  world : World
  work : List ℕ
  out : List Text

/-- A walk that marks the edges: what it does at every node, and what it does for an edge that it
marks, behind the inputs. -/
def walk (node : ℕ → Walk → Walk) (edge : ℕ → Walk → Except Stop Walk) :
    ℕ → Walk → ℕ → Except Stop Walk
  | 0, _, _ => .error .endless
  | fuel + 1, st, n =>
    let st := node n st
    match st.world.gen n with
    | none => .ok st
    | some e =>
      if e ∈ st.work then .ok st
      else do
        let st ← (st.world.edge e).ins.foldlM (walk node edge fuel) { st with work := e :: st.work }
        edge e st

/-- The command of an edge, if it has one. -/
def printcommand (e : ℕ) (st : Walk) : Except Stop Walk := do
  let (command, w) ← st.world.getvar (st.world.edge e) "command".toList true
  match command with
  | none => return { st with world := w }
  | some command =>
    if command = [] then return { st with world := w }
    else return { st with world := w, out := st.out ++ [cstr command] }

def targetcommands : ℕ → Walk → ℕ → Except Stop Walk := walk (fun _ st => st) printcommand

section

variable (nodeptr edgeptr : ℕ → Text)

def quote (s : Text) : Text := '"' :: s ++ ['"']

def printnode (n : ℕ) (st : Walk) : Walk :=
  { st with out := st.out ++ [quote (nodeptr n) ++ " [label=".toList ++
      quote (st.world.pathof n) ++ "]".toList] }

def edgelines (w : World) (e : ℕ) : List Text :=
  let arrow := " -> ".toList
  let label := " [label=".toList ++ quote (w.rulename e)
  match (w.edge e).ins, (w.edge e).outs with
  | [i], [o] => [quote (nodeptr i) ++ arrow ++ quote (nodeptr o) ++ label ++ "]".toList]
  | ins, outs =>
    let style (k : ℕ) := if (w.edge e).inorderidx ≤ k then " style=dotted" else ""
    [quote (edgeptr e) ++ label ++ ", shape=ellipse]".toList] ++
      outs.map (fun o => quote (edgeptr e) ++ arrow ++ quote (nodeptr o)) ++
      ins.mapIdx fun k i => quote (nodeptr i) ++ arrow ++ quote (edgeptr e) ++
        " [arrowhead=none".toList ++ (style k).toList ++ "]".toList

def printedge (e : ℕ) (st : Walk) : Except Stop Walk :=
  .ok { st with out := st.out ++ edgelines nodeptr edgeptr st.world e }

def graphnode : ℕ → Walk → ℕ → Except Stop Walk :=
  walk (printnode nodeptr) (printedge nodeptr edgeptr)

end

/-- The targets of the manifest, or else the outputs that no edge uses. -/
def World.defaultnodes (w : World) : List ℕ :=
  if w.deftarg ≠ [] then w.deftarg
  else w.alledges.flatMap fun e => (w.edge e).outs.filter fun n => w.nuse n = 0

/-- The node with the name of an argument. -/
def World.target (w : World) (arg : Text) : Except Stop ℕ :=
  match w.nodeget arg with
  | none => fatal "unknown target '" arg "'"
  | some n => .ok n

/-- The nodes that a tool is called for. -/
def World.targetnodes (w : World) (args : List Text) : Except Stop (List ℕ) :=
  if args = [] then .ok w.defaultnodes else args.mapM w.target

def commands (w : World) (args : List Text) (fuel : ℕ) : Except Stop (List Text) := do
  let nodes ← w.targetnodes args
  let st ← nodes.foldlM (targetcommands fuel) ⟨w, [], []⟩
  return st.out

def graphtext (out : List Text) : List Text :=
  ["digraph ninja \x7b".toList, "rankdir=\"LR\"".toList,
    "node [fontsize=10, shape=box, height=0.25]".toList, "edge [fontsize=10]".toList] ++
    out ++ ["\x7d".toList]

def graph (nodeptr edgeptr : ℕ → Text) (w : World) (args : List Text) (fuel : ℕ) :
    Except Stop (List Text) := do
  let nodes ← w.targetnodes args
  let st ← nodes.foldlM (graphnode nodeptr edgeptr fuel) ⟨w, [], []⟩
  return graphtext st.out

/-! ### query and targets -/

/-- The edge that makes a node, with its inputs, and the outputs of the edges that use it. -/
def query (w : World) (args : List Text) : Except Stop (List Text) :=
  if args = [] then .error (.fatal "usage")
  else do
    let shown ← args.mapM fun arg => do
      let n ← w.target arg
      let made :=
        match w.gen n with
        | none => []
        | some e => ("  input: ".toList ++ w.rulename e) ::
            (w.edge e).ins.map fun i => "    ".toList ++ w.pathof i
      let used := (w.nodes.getD n ⟨[], none, []⟩).use.flatMap fun e =>
        (w.edge e).outs.map fun o => "    ".toList ++ w.pathof o
      return ((arg ++ [':']) :: made) ++ "  outputs:".toList :: used
    return shown.flatten

section

variable (w : World)

/-- The node, and what it is made of, `depth` levels deep. The counter wraps. -/
def targetsdepth : ℕ → ℕ → BitVec 64 → ℕ → Except Stop (List Text)
  | 0, _, _, _ => .error .endless
  | fuel + 1, n, depth, indent =>
    let blanks := List.replicate (2 * indent) ' '
    match w.gen n with
    | none => .ok [blanks ++ w.pathof n]
    | some e =>
      let line := blanks ++ w.pathof n ++ ": ".toList ++ w.rulename e
      if depth = 1 then .ok [line]
      else do
        let below ← (w.edge e).ins.mapM fun i => targetsdepth fuel i (depth - 1) (indent + 1)
        return line :: below.flatten

/-- `targets depth` -/
def targetsall (depth : BitVec 64) (fuel : ℕ) : Except Stop (List Text) := do
  let roots := w.alledges.flatMap fun e => (w.edge e).outs.filter fun n => w.nuse n = 0
  let shown ← roots.mapM fun n => targetsdepth w fuel n depth 0
  return shown.flatten

def targets (args : List Text) (fuel : ℕ) : Except Stop (List Text) :=
  let usage := .error (.fatal "usage")
  match args with
  | [] => targetsall w 1 fuel
  | mode :: rest =>
    if 2 ≤ rest.length then usage
    else if mode = "depth".toList then
      match rest with
      | [] => targetsall w 1 fuel
      | arg :: _ =>
        let depth := strtoimax arg 10
        if depth.endptr ≠ [] then usage else targetsall w depth.val fuel
    else if mode = "rule".toList then
      match rest with
      | [] => .ok (w.alledges.flatMap fun e =>
          ((w.edge e).ins.filter fun i => w.gen i = none).map w.pathof)
      | name :: _ => .ok (w.alledges.flatMap fun e =>
          if w.rulename e = name then (w.edge e).outs.map w.pathof else [])
    else if mode = "all".toList ∧ rest = [] then
      .ok (w.alledges.flatMap fun e =>
        (w.edge e).outs.map fun n => w.pathof n ++ ": ".toList ++ w.rulename e)
    else usage

end

end Bootsh.Samu.Manifest
