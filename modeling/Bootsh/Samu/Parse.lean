import Bootsh.Samu.CanonPath
import Bootsh.Samu.Graph

/-!
`parse.c`, one step for each turn of the loops that read statements, lines of blocks and comments.
The frames on the stack are the calls of `parse` for the files that include each other.
-/
namespace Bootsh.Samu.Manifest

/-- What `fopen` finds, and what is in the files. -/
structure Files (ι : Type) where
  fopen : Text → Option ι
  content : ι → Text

/-- Where `parse` is in a file: before a statement, or in the block of lines behind one. -/
inductive Mode where
  | keyword
  | rule (r : Rule) (hascommand hasrspfile hasrspcontent : Bool)
  | edge (e : ℕ) (outs ins : List EvalString)
  | pool (p : ℕ)

/-- A call of `parse`; `comment` says that it is in the loop of the scanner's `comment`. -/
structure Frame (ι : Type) where
  file : ι
  rest : Text
  env : EnvRef
  mode : Mode
  comment : Bool

structure Config (ι : Type) where
  stack : List (Frame ι)
  world : World

/-- What a turn leads to: on in the file, back to the file that included it, or into another. -/
inductive Turn (ι : Type) where
  | on (f : Frame ι) (w : World)
  | back (w : World)
  | into (f g : Frame ι) (w : World)

inductive Status (ι : Type) where
  | run (cfg : Config ι)
  | done (w : World)
  | stop (e : Stop)

def scan {α : Type} (r : Except String α) : Except Stop α := r.mapError .scan

def fatal {α : Type} (msg : String) (arg : Text) (tail : String) : Except Stop α :=
  .error (.fatal (msg ++ String.ofList arg ++ tail))

/-- A string up to the NUL. -/
def cstr (s : Text) : Text := s.takeWhile (· ≠ '\x00')

def canonpath (path : Text) : Except Stop Text :=
  (CanonPath.canonpath path).mapError fun
    | .emptyPath => .fatal "empty path"
    | .tooMany => .fatal ("path has too many components: " ++ String.ofList (cstr path))
    | .outside => .outside

/-! ### The graph -/

namespace World

def mkenv (w : World) (parent : EnvRef) : World × EnvRef :=
  ({ w with envs := w.envs ++ [⟨[], []⟩] }, w.envs.length :: parent)

def nodeget (w : World) (path : Text) : Option ℕ :=
  let n := w.nodes.findIdx fun n => n.path = path
  if n < w.nodes.length then some n else none

def mknode (w : World) (path : Text) : World × ℕ :=
  match w.nodeget path with
  | some n => (w, n)
  | none => ({ w with nodes := w.nodes ++ [⟨path, none, []⟩] }, w.nodes.length)

def gen (w : World) (n : ℕ) : Option ℕ := (w.nodes.getD n ⟨[], none, []⟩).gen

def edge (w : World) (e : ℕ) : Edge := w.edges.getD e ⟨0, none, [], [], [], 0, 0, 0⟩

def setEdge (w : World) (e : ℕ) (f : Edge → Edge) : World :=
  { w with edges := w.edges.modify e f }

/-- `edgevar` for an edge of the graph. -/
def getvar (w : World) (e : Edge) (var : Text) (escape : Bool) :
    Except Stop (Option Text × World) := do
  let b := (w.rules.getD e.rule ⟨[], []⟩).bindings
  let (val, b) ← w.edgevar e escape (b.length + 1) b var
  return (val, { w with rules := w.rules.modify e.rule fun r => { r with bindings := b } })

def addpool (w : World) (name : Text) : Except Stop (World × ℕ) :=
  if w.pools.any fun p => p.name = name then fatal "pool '" name "' redefined"
  else .ok ({ w with pools := w.pools ++ [⟨name, 0⟩] }, w.pools.length)

def poolget (w : World) (name : Text) : Except Stop ℕ :=
  let p := w.pools.findIdx fun p => p.name = name
  if p < w.pools.length then .ok p else fatal "unknown pool '" name "'"

/-- An output of the edge `e`. -/
def addout (dupbuildwarn : Bool) (e : ℕ) (w : World) (str : EvalString) : Except Stop World := do
  let val ← canonpath (enveval w.envs (w.edge e).env str)
  let (w, n) := w.mknode val
  match w.gen n with
  | some _ =>
    if dupbuildwarn then
      return w.setEdge e fun edge =>
        if edge.outs.length < edge.outimpidx then { edge with outimpidx := edge.outimpidx - 1 }
        else edge
    else fatal "multiple rules generate '" (cstr val) "'"
  | none =>
    let w := { w with nodes := w.nodes.modify n fun node => { node with gen := some e } }
    return w.setEdge e fun edge => { edge with outs := edge.outs ++ [n] }

def addin (e : ℕ) (w : World) (str : EvalString) : Except Stop World := do
  let val ← canonpath (enveval w.envs (w.edge e).env str)
  let (w, n) := w.mknode val
  let w := { w with nodes := w.nodes.modify n fun node => { node with use := node.use ++ [e] } }
  return w.setEdge e fun edge => { edge with ins := edge.ins ++ [n] }

end World

/-! ### Statements -/

def parselet (s : Text) : Except String (EvalString × Text) := do
  let s ← scanchar '=' s
  let (val, s) ← scanstring false s
  let s ← scannewline s
  return (val, s)

/-- The paths behind a token that need not be there. -/
def optpaths (found : Bool) (s : Text) : Except String (List EvalString × Text) :=
  if found then scanpaths s else .ok ([], s)

/-- The implicit inputs, when `p` is what the pipe before them was, and the pipe behind them. -/
def implicitpaths (p : ℕ) (s : Text) : Except String (List EvalString × ℕ × Text) :=
  if p = 1 then do
    let (paths, s) ← scanpaths s
    let (p, s) ← scanpipe 2 s
    return (paths, p, s)
  else .ok ([], p, s)

section

variable {ι : Type} (f : Frame ι) (w : World) (s : Text)

def parserule : Except Stop (Turn ι) := do
  let (rule, s) ← scan (name s)
  let s ← scan (scannewline s)
  return .on { f with rest := s, mode := .rule ⟨rule, []⟩ false false false } w

/-- A line of the block of a rule. -/
def rulelet (r : Rule) (hascommand hasrspfile hasrspcontent : Bool) : Except Stop (Turn ι) := do
  let (var, s) ← scan (name s)
  let (val, s) ← scan (parselet s)
  let r := { r with bindings := treeinsert r.bindings var (.str val) }
  let has (x : String) : Bool := val ≠ [] ∧ var = x.toList
  return .on { f with
    rest := s
    mode := .rule r (hascommand || has "command") (hasrspfile || has "rspfile")
      (hasrspcontent || has "rspfile_content") } w

/-- The end of the block of a rule. -/
def ruleend (r : Rule) (hascommand hasrspfile hasrspcontent : Bool) : Except Stop (Turn ι) :=
  if hascommand = false then fatal "rule '" r.name "' has no command"
  else if hasrspfile ≠ hasrspcontent then
    fatal "rule '" r.name "' has rspfile and no rspfile_content or vice versa"
  else
    match envaddrule (f.env.headD 0) r.name w.rules.length w.envs with
    | none => fatal "rule '" r.name "' redefined"
    | some envs =>
      .ok (.on { f with rest := s, mode := .keyword } { w with envs := envs, rules := w.rules ++ [r] })

/-- The paths of a build statement, up to its block. `mkedge` is called for it when the rule is
known: nothing looks at the edge before. -/
def parseedge : Except Stop (Turn ι) := do
  let (outs, s) ← scan (scanpaths s)
  let (p, s) ← scan (scanpipe 1 s)
  let (implicitouts, s) ← scan (optpaths (p ≠ 0) s)
  if outs ++ implicitouts = [] then .error (.scan "expected output path")
  else do
    let s ← scan (scanchar ':' s)
    let (rule, s) ← scan (name s)
    match envrule w.envs f.env rule with
    | none => fatal "undefined rule '" rule "'"
    | some r => do
      let (ins, s) ← scan (scanpaths s)
      let (p, s) ← scan (scanpipe 3 s)
      let (implicitins, p, s) ← scan (implicitpaths p s)
      let (orderins, s) ← scan (optpaths (p = 2) s)
      let s ← scan (scannewline s)
      let (w, env) := w.mkenv f.env
      let edge : Edge := ⟨r, none, env, [], [], outs.length, ins.length,
        ins.length + implicitins.length⟩
      let mode := .edge w.edges.length (outs ++ implicitouts) (ins ++ implicitins ++ orderins)
      return .on { f with rest := s, mode := mode } { w with edges := w.edges ++ [edge] }

/-- A line of the block of a build statement. -/
def edgelet (e : ℕ) : Except Stop (Turn ι) := do
  let (var, s) ← scan (name s)
  let (str, s) ← scan (parselet s)
  let val := enveval w.envs f.env str
  return .on { f with rest := s } { w with
    envs := envaddvar ((w.edge e).env.headD 0) var val w.envs }

/-- The end of the block of a build statement. -/
def edgeend (dupbuildwarn : Bool) (e : ℕ) (outs ins : List EvalString) :
    Except Stop (Turn ι) := do
  let w ← outs.foldlM (World.addout dupbuildwarn e) w
  let w ← ins.foldlM (World.addin e) w
  let (val, w) ← w.getvar (w.edge e) "pool".toList true
  match val with
  | none => return .on { f with rest := s, mode := .keyword } w
  | some val => do
    let p ← w.poolget (cstr val)
    return .on { f with rest := s, mode := .keyword } (w.setEdge e ({ · with pool := some p }))

def parseinclude (files : Files ι) (newscope : Bool) : Except Stop (Turn ι) := do
  let (str, s) ← scan (scanstring true s)
  if str = [] then .error (.scan "expected include path")
  else do
    let s ← scan (scannewline s)
    let path := cstr (enveval w.envs f.env str)
    let (w, env) := if newscope then w.mkenv f.env else (w, f.env)
    match files.fopen path with
    | none => fatal "open " path ":"
    | some file =>
      return .into { f with rest := s } ⟨file, files.content file, env, .keyword, false⟩ w

def adddefault (env : EnvRef) (w : World) (str : EvalString) : Except Stop World := do
  let path ← canonpath (enveval w.envs env str)
  match w.nodeget path with
  | none => fatal "unknown target '" (cstr path) "'"
  | some n => return { w with deftarg := w.deftarg ++ [n] }

def parsedefault : Except Stop (Turn ι) := do
  let (paths, s) ← scan (scanpaths s)
  let w ← paths.foldlM (adddefault f.env) w
  let s ← scan (scannewline s)
  return .on { f with rest := s } w

def parsepool : Except Stop (Turn ι) := do
  let (pool, s) ← scan (name s)
  let (w, p) ← w.addpool pool
  let s ← scan (scannewline s)
  return .on { f with rest := s, mode := .pool p } w

/-- A line of the block of a pool. -/
def poollet (p : ℕ) : Except Stop (Turn ι) := do
  let (var, s) ← scan (name s)
  let (val, s) ← scan (parselet s)
  if var = "depth".toList then
    let str := cstr (enveval w.envs f.env val)
    let depth := strtoimax str 10
    if depth.endptr = [] then
      return .on { f with rest := s } { w with
        pools := w.pools.modify p ({ · with maxjobs := depth.val.setWidth 32 }) }
    else fatal "invalid pool depth '" str "'"
  else fatal "unexpected pool variable '" var "'"

/-- The end of the block of a pool. -/
def poolend (p : ℕ) : Except Stop (Turn ι) :=
  let pool := w.pools.getD p ⟨[], 0⟩
  if pool.maxjobs = 0 then fatal "pool '" pool.name "' has no depth"
  else .ok (.on { f with rest := s, mode := .keyword } w)

/-- A number of `sscanf` with `%d`, and the text behind it. -/
def scanint (s : Text) : Option (BitVec 32 × Text) :=
  let n := strtoimax s 10
  if n.endptr.length < s.length then some (n.val.setWidth 32, n.endptr) else none

def ninjamajor : ℤ := 1

def ninjaminor : ℤ := 9

def checkversion (ver : Text) : Except Stop Unit :=
  match scanint ver with
  | none => .error (.fatal "invalid ninja_required_version")
  | some (major, t) =>
    let minor : BitVec 32 :=
      match t with
      | '.' :: t => ((scanint t).map Prod.fst).getD 0
      | _ => 0
    if ninjamajor < major.toInt ∨ major.toInt = ninjamajor ∧ ninjaminor < minor.toInt then
      fatal "ninja_required_version " ver " is newer than 1.9"
    else .ok ()

def checkvariable (var val : Text) : Except Stop Unit :=
  if var = "ninja_required_version".toList then checkversion (cstr val) else .ok ()

def parsevariable (var : Text) : Except Stop (Turn ι) := do
  let (str, s) ← scan (parselet s)
  let val := enveval w.envs f.env str
  checkvariable var val
  return .on { f with rest := s } { w with envs := envaddvar (f.env.headD 0) var val w.envs }

/-- The statement that begins with a name. -/
def statement (files : Files ι) (keyword : Text) : Except Stop (Turn ι) :=
  if keyword = "build".toList then parseedge f w s
  else if keyword = "default".toList then parsedefault f w s
  else if keyword = "include".toList then parseinclude f w s files false
  else if keyword = "pool".toList then parsepool f w s
  else if keyword = "rule".toList then parserule f w s
  else if keyword = "subninja".toList then parseinclude f w s files true
  else parsevariable f w s keyword

end

/-! ### Turns -/

section

variable {ι : Type} (files : Files ι) (dupbuildwarn : Bool)

/-- A turn of the loop in `scankeyword`, and the statement that it finds. -/
def keywordturn (f : Frame ι) (w : World) : Except Stop (Turn ι) :=
  match f.rest with
  | [] => .ok (.back w)
  | ' ' :: s => do
    let (_, s) ← scan (space (' ' :: s))
    if s.head? = some '#' then return .on { f with rest := s, comment := true } w
    else
      match ← scan (newline s) with
      | some s => return .on { f with rest := s } w
      | none => .error (.scan "unexpected indent")
  | '#' :: s => .ok (.on { f with rest := '#' :: s, comment := true } w)
  | s => do
    match ← scan (newline s) with
    | some s => return .on { f with rest := s } w
    | none => do
      let (keyword, s) ← scan (name s)
      statement f w s files keyword

/-- A turn of the loop in `scanindent`, and the line of the block or its end. -/
def indentturn (f : Frame ι) (w : World)
    (line last : Text → Except Stop (Turn ι)) : Except Stop (Turn ι) := do
  let (indent, s) ← scan (space f.rest)
  if s.head? = some '#' then return .on { f with rest := s, comment := true } w
  else if indent then
    match ← scan (newline s) with
    | some s => last s
    | none => line s
  else last s

def turn (f : Frame ι) (w : World) : Except Stop (Turn ι) :=
  match f.mode with
  | .keyword => keywordturn files f w
  | .rule r hascommand hasrspfile hasrspcontent =>
    indentturn f w (fun s => rulelet f w s r hascommand hasrspfile hasrspcontent)
      fun s => ruleend f w s r hascommand hasrspfile hasrspcontent
  | .edge e outs ins =>
    indentturn f w (fun s => edgelet f w s e) fun s => edgeend f w s dupbuildwarn e outs ins
  | .pool p => indentturn f w (fun s => poollet f w s p) fun s => poolend f w s p

/-- A turn of the loop in `comment`: `next(s)`, until a newline comes. -/
def commentturn (f : Frame ι) (w : World) : Except Stop (Turn ι) := do
  match ← scan (newline f.rest.tail) with
  | some s => return .on { f with rest := s, comment := false } w
  | none => return .on { f with rest := f.rest.tail } w

def step (cfg : Config ι) : Status ι :=
  match cfg.stack with
  | [] => .done cfg.world
  | f :: fs =>
    match if f.comment then commentturn f cfg.world else turn files dupbuildwarn f cfg.world with
    | .error e => .stop e
    | .ok (.on f w) => .run ⟨f :: fs, w⟩
    | .ok (.back w) => .run ⟨fs, w⟩
    | .ok (.into f g w) => .run ⟨g :: f :: fs, w⟩

/-- `parse(name, env)` -/
def start (file : ι) (env : EnvRef) (w : World) : Config ι :=
  ⟨[⟨file, files.content file, env, .keyword, false⟩], w⟩

end

/-- The state after `envinit`: the rule `phony` in the root environment, and the pool `console`. -/
def envinit : World :=
  ⟨[⟨[], [("phony".toList, 0)]⟩], [⟨"phony".toList, []⟩], [⟨"console".toList, 1⟩], [], [], []⟩

end Bootsh.Samu.Manifest
