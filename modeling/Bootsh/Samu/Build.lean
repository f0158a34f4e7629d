import Mathlib.Data.Int.Notation
import Mathlib.Logic.Function.Basic
import Bootsh.Lib.Fallible

/-!
The scheduler of `build.c`. Nodes, edges and pools have numbers in place of pointers, and the lists
linked by `worknext` are lists. The jobs that run end in any order.
-/
namespace Bootsh.Samu.Build

open Function (update)
open Fallible (each)

/-- The graph of `graph.c`. Of the inputs of an edge, those from `inorderidx` on are only for the
order. -/
structure Graph where
  gen : ℕ → Option ℕ
  use : ℕ → List ℕ
  outs : ℕ → List ℕ
  ins : ℕ → List ℕ
  inorderidx : ℕ → ℕ
  phony : ℕ → Bool
  generator : ℕ → Bool
  restat : ℕ → Bool
  pool : ℕ → Option ℕ
  maxjobs : ℕ → ℤ
  edges : ℕ

def mtimeUnknown : ℤ := -1

def mtimeMissing : ℤ := -2

/-- The times and the hash of a node and whether it is dirty, and the flags of an edge. -/
structure Marks where
  mtime : ℕ → ℤ
  logmtime : ℕ → ℤ
  hash : ℕ → BitVec 64
  dirty : ℕ → Bool
  work : ℕ → Bool
  dirtyIn : ℕ → Bool
  dirtyOut : ℕ → Bool
  cycle : ℕ → Bool
  deps : ℕ → Bool

/-- `FLAG_DIRTY` -/
def Marks.flagDirty (m : Marks) (e : ℕ) : Bool := m.dirtyIn e || m.dirtyOut e

/-- What happens to an edge: it becomes ready; its command is started, or cannot be; the command
succeeds or fails; the edge is passed over because it is phony or the run is dry; it is pruned. -/
inductive Action where
  | queue (e : ℕ)
  | start (e : ℕ)
  | nostart (e : ℕ)
  | finish (e : ℕ)
  | fail (e : ℕ)
  | skip (e : ℕ)
  | prune (e : ℕ)
  deriving DecidableEq, Repr

/-- The counters of the edges, the list `work`, the pools and `ntotal`. The trace, the last action
first, is not part of the program. -/
structure Sched where
  nblock : ℕ → ℕ
  nprune : ℕ → ℕ
  work : List ℕ
  numjobs : ℕ → ℤ
  poolwork : ℕ → List ℕ
  ntotal : ℕ
  trace : List Action

/-- Why a computation ends early: with an error, because a counter would become negative, or
because the recursion is too deep; or the step cannot be taken. -/
inductive Halt where
  | missing (n : ℕ)
  | cycle (n : ℕ)
  | wrap
  | endless
  | disabled
  deriving DecidableEq, Repr

def Sched.act (a : Action) (s : Sched) : Sched := { s with trace := a :: s.trace }

/-- The pool that limits the edge. -/
def Graph.limit (g : Graph) (e : ℕ) : Option ℕ := if g.phony e then none else g.pool e

/-- `queue` -/
def queue (g : Graph) (e : ℕ) (s : Sched) : Sched :=
  let s := s.act (.queue e)
  match g.limit e with
  | none => { s with work := e :: s.work }
  | some p =>
    if s.numjobs p = g.maxjobs p then
      { s with poolwork := update s.poolwork p (e :: s.poolwork p) }
    else { s with numjobs := update s.numjobs p (s.numjobs p + 1), work := e :: s.work }

/-- `--n` of a counter -/
def decrement : ℕ → Except Halt ℕ
  | 0 => .error .wrap
  | n + 1 => .ok n

/-! ### The end of an edge -/

section

variable (g : Graph) (m : Marks)

/-- An input less blocks the edge. -/
def unblock (e : ℕ) (s : Sched) : Except Halt Sched :=
  (decrement (s.nblock e)).bind fun k =>
    let s := { s with nblock := update s.nblock e k }
    .ok (if k = 0 then queue g e s else s)

/-- The edge is finished without its command. -/
def pruned (done : ℕ → Bool → Sched → Except Halt Sched) (e : ℕ) (s : Sched) : Except Halt Sched :=
  (each (fun n => done n true) (g.outs e) (s.act (.prune e))).bind fun s =>
    if m.flagDirty e && !g.phony e then
      (decrement s.ntotal).bind fun k => .ok { s with ntotal := k }
    else .ok s

/-- The body of the loop of `nodedone`. -/
def visit (done : ℕ → Bool → Sched → Except Halt Sched) (prune : Bool) (e : ℕ) (s : Sched) :
    Except Halt Sched :=
  if !m.work e then .ok s
  else if !(if prune then m.dirtyOut e else m.flagDirty e) then
    (decrement (s.nprune e)).bind fun k =>
      let s := { s with nprune := update s.nprune e k }
      if k = 0 then pruned g m done e s else unblock g e s
  else unblock g e s

/-- `nodedone` -/
def nodedone : ℕ → ℕ → Bool → Sched → Except Halt Sched
  | 0, _, _, _ => .error .endless
  | fuel + 1, n, prune, s => each (visit g m (nodedone fuel) prune) (g.use n) s

end

/-! ### Planning -/

/-- What `depsload` finds for an edge: nothing to load, nodes, or that the record is missing or
out of date. -/
inductive Deps where
  | none
  | nodes (l : List ℕ)
  | missing

structure Plan where
  graph : Graph
  marks : Marks
  sched : Sched

/-- The files, the dependencies that are recorded, and the hashes of the commands. -/
structure Records where
  stat : ℕ → ℤ
  deps : Plan → ℕ → Deps
  edgehash : ℕ → BitVec 64

section

variable (w : Records)

/-- `nodestat`, if it has not been called for the node. -/
def Marks.statUnknown (n : ℕ) (m : Marks) : Marks :=
  if m.mtime n = mtimeUnknown then { m with mtime := update m.mtime n (w.stat n) } else m

/-- `isnewer`, for the times of the nodes -/
def isnewer (m : Marks) (n₁ : Option ℕ) (n₂ : ℕ) : Bool :=
  n₁.any fun n => decide (m.mtime n₂ < m.mtime n)

/-- The newest input up to `n`. -/
def newer (m : Marks) (newest : Option ℕ) (n : ℕ) : Option ℕ :=
  if m.mtime n ≠ mtimeMissing ∧ !isnewer m newest n then some n else newest

/-- `isdirty`, for an output of the edge `e` -/
def isdirty (p : Plan) (e n : ℕ) (newest : Option ℕ) : Bool :=
  let m := p.marks
  if p.graph.phony e then (p.graph.ins e).isEmpty && m.mtime n = mtimeMissing
  else if m.mtime n = mtimeMissing then true
  else if isnewer m newest n && (!p.graph.restat e || m.logmtime n = mtimeMissing) then true
  else if m.logmtime n = mtimeMissing && !p.graph.generator e then true
  else if m.logmtime n ≠ mtimeMissing && newest.any fun k => decide (m.logmtime n < m.mtime k) then
    true
  else if p.graph.generator e then false
  else w.edgehash e ≠ m.hash n

/-- `mkphony`, for a node that no edge makes -/
def Graph.mkphony (n : ℕ) (g : Graph) : Graph :=
  { g with
    gen := update g.gen n (some g.edges)
    outs := update g.outs g.edges [n]
    ins := update g.ins g.edges []
    inorderidx := update g.inorderidx g.edges 0
    phony := update g.phony g.edges true
    pool := update g.pool g.edges none
    edges := g.edges + 1 }

/-- `nodeuse` -/
def Graph.nodeuse (n e : ℕ) (g : Graph) : Graph := { g with use := update g.use n (g.use n ++ [e]) }

/-- The loop of `edgeadddeps`. -/
def Graph.adddep (e : ℕ) (g : Graph) (n : ℕ) : Graph :=
  (if g.gen n = none then g.mkphony n else g).nodeuse n e

def edgeadddeps (e : ℕ) (deps : List ℕ) (g : Graph) : Graph :=
  let g := deps.foldl (Graph.adddep e) g
  { g with
    ins := update g.ins e
      ((g.ins e).take (g.inorderidx e) ++ deps ++ (g.ins e).drop (g.inorderidx e))
    inorderidx := update g.inorderidx e (g.inorderidx e + deps.length) }

/-- `depsload` -/
def depsload (e : ℕ) (p : Plan) : Plan :=
  if p.marks.deps e then p
  else
    let m := { p.marks with deps := update p.marks.deps e true }
    match w.deps p e with
    | .none => { p with marks := m }
    | .nodes l => { p with graph := edgeadddeps e l p.graph, marks := m }
    | .missing => { p with marks := { m with
        dirty := (p.graph.outs e).head?.elim m.dirty fun n => update m.dirty n true
        dirtyOut := update m.dirtyOut e true } }

/-- The node has to wait for its edge. -/
def blocks (p : Plan) (n : ℕ) : Bool :=
  p.marks.dirty n || (p.graph.gen n).any fun g => decide (0 < p.sched.nblock g)

/-- The rest of the loop's body, when the input `n` with the number `i` has been added. -/
def countinput (e i n : ℕ) (p : Plan) (newest : Option ℕ) : Plan × Option ℕ :=
  let m := p.marks
  let order := decide (p.graph.inorderidx e ≤ i)
  let s := p.sched
  ({ p with
      marks := if !order && m.dirty n then { m with dirtyIn := update m.dirtyIn e true } else m
      sched := if blocks p n then { s with nblock := update s.nblock e (s.nblock e + 1) } else s },
    if order then newest else newer m newest n)

/-- The loop over the outputs. -/
def checkouts (e : ℕ) (newest : Option ℕ) (outs : List ℕ) (p : Plan) : Plan :=
  match outs with
  | [] => p
  | n :: outs =>
    if p.marks.dirtyOut e then p
    else if isdirty w p e n newest then { p with marks := { p.marks with
      dirty := update p.marks.dirty n true
      dirtyOut := update p.marks.dirtyOut e true } }
    else checkouts e newest outs p

/-- `buildadd` behind the loop over the outputs. -/
def settle (e : ℕ) (p : Plan) : Plan :=
  let m := p.marks
  let dirty := m.flagDirty e
  let s := p.sched
  let s := if m.dirtyOut e then s else { s with nprune := update s.nprune e (s.nblock e) }
  let s := if dirty && s.nblock e = 0 then queue p.graph e s else s
  { p with
    marks := { m with
      dirty := if dirty then fun n => m.dirty n || decide (n ∈ p.graph.outs e) else m.dirty
      cycle := update m.cycle e false }
    sched := if dirty && !p.graph.phony e then { s with ntotal := s.ntotal + 1 } else s }

/-- `buildadd` up to the loop over the inputs. -/
def enter (e : ℕ) (p : Plan) : Plan :=
  let m := { p.marks with work := update p.marks.work e true, cycle := update p.marks.cycle e true }
  let m := (p.graph.outs e).foldl
    (fun m n => Marks.statUnknown w n { m with dirty := update m.dirty n false }) m
  let p := depsload w e { p with marks := m }
  { p with sched := { p.sched with nblock := update p.sched.nblock e 0 } }

/-- The body of the loop over the inputs. -/
def addinput (add : ℕ → Plan → Except Halt Plan) (e : ℕ) (i : ℕ × ℕ) (r : Plan × Option ℕ) :
    Except Halt (Plan × Option ℕ) :=
  (add i.1 r.1).bind fun p => .ok (countinput e i.2 i.1 p r.2)

/-- `buildadd` -/
def buildadd : ℕ → ℕ → Plan → Except Halt Plan
  | 0, _, _ => .error .endless
  | fuel + 1, n, p =>
    match p.graph.gen n with
    | none =>
      let m := p.marks.statUnknown w n
      if m.mtime n = mtimeMissing then .error (.missing n)
      else .ok { p with marks := { m with dirty := update m.dirty n false } }
    | some e =>
      if p.marks.cycle e then .error (.cycle n)
      else if p.marks.work e then .ok p
      else
        let p := enter w e p
        (each (addinput (buildadd fuel) e) ((p.graph.ins e).zipIdx) (p, none)).bind fun r =>
          .ok (settle e (checkouts w e r.2 (r.1.graph.outs e) r.1))

end

/-! ### Running -/

/-- `buildopts` -/
structure Options where
  maxjobs : ℕ
  maxfail : ℕ
  dryrun : Bool

/-- The state of `build`: `polling` says that it is in the loop over the jobs. -/
structure State where
  plan : Plan
  nstarted : ℕ
  nfinished : ℕ
  running : List ℕ
  numfail : ℕ
  maxjobs : ℕ
  polling : Bool

/-- What `build` does next. In the loop that starts edges, it takes the first one of the list, and
its job starts or does not; otherwise it polls. When it polls, a running job is done, with the files
as they are then; or all jobs that were ready have been seen, and the load has been asked for. -/
inductive Event where
  | start (started : Bool)
  | poll
  | done (e : ℕ) (failed : Bool) (stat : ℕ → ℤ)
  | again (overload : Bool)

/-- `nodestat`, for files as they are -/
def Marks.stat (stat : ℕ → ℤ) (n : ℕ) (m : Marks) : Marks :=
  { m with mtime := update m.mtime n (stat n) }

/-- `shouldprune` -/
def shouldprune (g : Graph) (stat : ℕ → ℤ) (e n : ℕ) (old : ℤ) (m : Marks) : Bool × Marks :=
  if old ≠ m.mtime n then (false, m)
  else
    let ins := (g.ins e).take (g.inorderidx e)
    let m := ins.foldl (fun m k => m.stat stat k) m
    match ins.foldl (newer m) none with
    | some k => (true, { m with logmtime := update m.logmtime n (m.mtime k) })
    | none => (true, m)

/-- The fuel that is enough for `nodedone`. -/
def Plan.fuel (p : Plan) : ℕ := p.graph.edges + 1

def Plan.nodedone (n : ℕ) (prune : Bool) (p : Plan) : Except Halt Plan :=
  (Build.nodedone p.graph p.marks p.fuel n prune p.sched).map fun s => { p with sched := s }

/-- The times of an output of `edgedone`, and whether it is pruned. -/
def outmarks (g : Graph) (stat : ℕ → ℤ) (e n : ℕ) (m : Marks) : Bool × Marks :=
  let old := m.mtime n
  let m := m.stat stat n
  let m := { m with
    logmtime := update m.logmtime n (if m.mtime n = mtimeMissing then 0 else m.mtime n) }
  if g.restat e then shouldprune g stat e n old m else (false, m)

/-- The body of the loop over the outputs in `edgedone`. -/
def outdone (stat : ℕ → ℤ) (e n : ℕ) (p : Plan) : Except Halt Plan :=
  let r := outmarks p.graph stat e n p.marks
  Plan.nodedone n r.1 { p with marks := r.2 }

/-- `edgedone` -/
def edgedone (w : Records) (stat : ℕ → ℤ) (e : ℕ) (p : Plan) : Except Halt Plan :=
  (each (outdone stat e) (p.graph.outs e) p).map fun p =>
    { p with marks := { p.marks with
      hash := fun n => if n ∈ p.graph.outs e then w.edgehash e else p.marks.hash n } }

/-- The job's place in its pool goes to the next edge of the pool. -/
def release (g : Graph) (e : ℕ) (s : Sched) : Sched :=
  match g.pool e with
  | none => s
  | some p =>
    match s.poolwork p with
    | e' :: rest => { s with poolwork := update s.poolwork p rest, work := e' :: s.work }
    | [] => { s with numjobs := update s.numjobs p (s.numjobs p - 1) }

/-- `jobdone` -/
def jobdone (w : Records) (stat : ℕ → ℤ) (e : ℕ) (failed : Bool) (p : Plan) : Except Halt Plan :=
  let p := { p with sched := release p.graph e p.sched }
  if failed then .ok { p with sched := p.sched.act (.fail e) }
  else edgedone w stat e { p with sched := p.sched.act (.finish e) }

section

variable (w : Records) (o : Options) (b : State)

/-- The condition of the loop that starts edges. -/
def State.canstart : Bool :=
  !b.plan.sched.work.isEmpty && decide (b.running.length < b.maxjobs) &&
    decide (b.numfail < o.maxfail)

/-- An edge that has no job. -/
def skipedge (e : ℕ) : Except Halt State :=
  let p := { b.plan with sched := b.plan.sched.act (.skip e) }
  let k := if p.graph.phony e then 0 else 1
  (each (fun n => Plan.nodedone n false) (p.graph.outs e) p).map fun p =>
    { b with plan := p, nstarted := b.nstarted + k, nfinished := b.nfinished + k }

def startedge (started : Bool) (e : ℕ) : State :=
  let p := b.plan
  let act := if started then Action.start e else Action.nostart e
  { b with
    plan := { p with sched := p.sched.act act }
    nstarted := b.nstarted + 1
    running := if started then e :: b.running else b.running
    numfail := if started then b.numfail else b.numfail + 1 }

/-- A step of `build`. -/
def step : Event → Except Halt State
  | .start started =>
    match b.plan.sched.work with
    | [] => .error .disabled
    | e :: rest =>
      if b.polling || !b.canstart o then .error .disabled
      else
        let b := { b with plan := { b.plan with sched := { b.plan.sched with work := rest } } }
        if b.plan.graph.phony e || o.dryrun then skipedge b e else .ok (startedge b started e)
  | .poll =>
    if b.polling || b.canstart o || b.running.isEmpty then .error .disabled
    else .ok { b with polling := true }
  | .done e failed stat =>
    if !b.polling || e ∉ b.running then .error .disabled
    else (jobdone w stat e failed b.plan).map fun p =>
      { b with
        plan := p
        nfinished := b.nfinished + 1
        running := b.running.erase e
        numfail := if failed then b.numfail + 1 else b.numfail }
  | .again overload =>
    if !b.polling then .error .disabled
    else .ok { b with polling := false, maxjobs := if overload then 1 else o.maxjobs }

/-- `build` has stopped. -/
def State.stopped : Bool := !b.polling && !b.canstart o && b.running.isEmpty

end

end Bootsh.Samu.Build
