import Bootsh.Samu.BuildSafe
import Bootsh.Samu.GraphLinks

/-!
From a manifest to the end of the build.
-/
namespace Bootsh.Samu.Manifest

open Fallible (Gives)
open Build (Graph Marks Plan Records Options State Fresh)

variable {ι : Type} {files : Files ι} {dupbuildwarn : Bool} {cfg : Config ι} {file : ι} {w : World}

/-- The graph for the scheduler; `phony` is the rule with the number 0. What `edgevar` gives for the
variables `generator` and `restat` comes with it. -/
def World.graph (generator restat : ℕ → Bool) (w : World) : Graph where
  gen := w.gen
  use := w.use
  outs e := (w.edge e).outs
  ins e := (w.edge e).ins
  inorderidx e := (w.edge e).inorderidx
  phony e := (w.edge e).rule == 0
  generator := generator
  restat := restat
  pool e := (w.edge e).pool
  maxjobs p := (w.depth p).toInt
  edges := w.edges.length

/-- Nothing has been added yet; the times and hashes of the log have been read. -/
def World.plan (generator restat : ℕ → Bool) (logmtime : ℕ → ℤ) (hash : ℕ → BitVec 64) (w : World) :
    Plan where
  graph := w.graph generator restat
  marks :=
    { mtime := fun _ => Build.mtimeUnknown
      logmtime := logmtime
      hash := hash
      dirty := fun _ => false
      work := fun _ => false
      dirtyIn := fun _ => false
      dirtyOut := fun _ => false
      cycle := fun _ => false
      deps := fun _ => false }
  sched :=
    { nblock := fun _ => 0
      nprune := fun _ => 0
      work := []
      numjobs := fun _ => 0
      poolwork := fun _ => []
      ntotal := 0
      trace := [] }

variable {generator restat : ℕ → Bool} {logmtime : ℕ → ℤ} {hash : ℕ → BitVec 64}

theorem World.edge_of_le {e : ℕ} (h : w.edges.length ≤ e) :
    w.edge e = ⟨0, none, [], [], [], 0, 0, 0⟩ := by
  rw [World.edge, List.getD_eq_getElem?_getD, List.getElem?_eq_none h]
  rfl

theorem World.Linked.wf (h : w.Linked) : (w.graph generator restat).Wf := by
  refine ⟨h.count_use, h.mem_outs, h.nodup_outs, h.lt_edges, ?_, ?_⟩
  · intro e he
    exact congrArg Edge.ins (World.edge_of_le he)
  · intro e he
    have hph : (w.graph generator restat).phony e = true := by
      change ((w.edge e).rule == 0) = true
      rw [World.edge_of_le he]
      rfl
    rw [Graph.limit, if_pos hph]

theorem World.maxjobs_ne_zero (h : ∀ p, w.depth p ≠ 0) (p : ℕ) :
    (w.graph generator restat).maxjobs p ≠ 0 := by
  intro hzero
  exact h p (BitVec.eq_of_toInt_eq hzero)

theorem World.Linked.fresh (h : w.Linked) : Fresh (w.plan generator restat logmtime hash) :=
  ⟨h.wf, fun _ => rfl, fun _ => rfl, fun _ => rfl, rfl, fun _ => rfl, fun _ => rfl, rfl, rfl⟩

/-- For every manifest that `parse` reads to its end, the graph is as the scheduler needs it, and no
pool is without places. -/
theorem parse_graph (generator restat : ℕ → Bool)
    (hreach : Reaches files dupbuildwarn (start files file [0] envinit) cfg)
    (hdone : step files dupbuildwarn cfg = .done w) :
    (w.graph generator restat).Wf ∧ ∀ p, (w.graph generator restat).maxjobs p ≠ 0 := by
  obtain ⟨hlinked, hdepth⟩ := parse_linked hreach hdone
  exact ⟨hlinked.wf, World.maxjobs_ne_zero hdepth⟩

/-- Steps until `parse` has returned or there is an error, at most `n`. -/
def steps (files : Files ι) (dupbuildwarn : Bool) : ℕ → Config ι → Status ι
  | 0, cfg => .run cfg
  | n + 1, cfg =>
    match step files dupbuildwarn cfg with
    | .run cfg' => steps files dupbuildwarn n cfg'
    | .done w => .done w
    | .stop e => .stop e

theorem steps_reaches {n : ℕ} (h : steps files dupbuildwarn n cfg = .done w) :
    ∃ cfg', Reaches files dupbuildwarn cfg cfg' ∧ step files dupbuildwarn cfg' = .done w := by
  induction n generalizing cfg with
  | zero => cases h
  | succ n ih =>
    rw [steps] at h
    cases hstep : step files dupbuildwarn cfg with
    | run cfg₁ =>
      rw [hstep] at h
      obtain ⟨cfg', hreach, hdone⟩ := ih h
      exact ⟨cfg', hreach.head hstep, hdone⟩
    | done w' =>
      rw [hstep] at h
      cases h
      exact ⟨cfg, .refl, hstep⟩
    | stop e =>
      rw [hstep] at h
      cases h

def tinyManifest : Text :=
  "rule cc\n command = cc\nbuild b: cc a\nbuild c: phony b | a\n".toList

/-- The plan for the manifest, with an empty log. -/
def tinyPlan (w : World) : Plan :=
  w.plan (fun _ => false) (fun _ => false) (fun _ => Build.mtimeMissing) fun _ => 0

/-- Only `a` exists. -/
def tinyRecords : Records where
  stat n := if n = 1 then 7 else Build.mtimeMissing
  deps _ _ := .none
  edgehash _ := 1

def tinyEvents : List Build.Event :=
  [.start true, .poll, .done 0 false fun _ => 8, .again false, .start true]

/-- The end of the build of `c`. -/
def tinyEnd : Status Unit → Option (Bool × ℕ × List Build.Action)
  | .done w =>
    match Build.addtargets tinyRecords [2] (tinyPlan w) with
    | .ok q =>
      match Build.run tinyRecords Build.tinyOptions tinyEvents
        (State.begin Build.tinyOptions false q) with
      | .ok b => some (b.stopped Build.tinyOptions, b.numfail, b.plan.sched.trace)
      | .error _ => none
    | .error _ => none
  | _ => none

theorem tiny_end :
    tinyEnd (steps (alone tinyManifest) false 40 (start (alone tinyManifest) () [0] envinit)) =
      some (true, 0, [.skip 1, .queue 1, .finish 0, .start 0, .queue 0]) := by
  decide +kernel

theorem tiny_run : ∃ cfg w q b,
    Reaches (alone tinyManifest) false (start (alone tinyManifest) () [0] envinit) cfg ∧
    step (alone tinyManifest) false cfg = .done w ∧
    Build.addtargets tinyRecords [2] (tinyPlan w) = .ok q ∧
    Build.run tinyRecords Build.tinyOptions tinyEvents
      (State.begin Build.tinyOptions false q) = .ok b ∧
    b.stopped Build.tinyOptions = true ∧ b.numfail = 0 ∧
    b.plan.sched.trace = [.skip 1, .queue 1, .finish 0, .start 0, .queue 0] := by
  have h := tiny_end
  cases hsteps : steps (alone tinyManifest) false 40
    (start (alone tinyManifest) () [0] envinit) with
  | run cfg =>
    rw [hsteps] at h
    cases h
  | stop e =>
    rw [hsteps] at h
    cases h
  | done w =>
    obtain ⟨cfg, hreach, hdone⟩ := steps_reaches hsteps
    rw [hsteps, tinyEnd] at h
    split at h
    case h_2 => cases h
    case h_1 q hq =>
      split at h
      case h_2 => cases h
      case h_1 b hb =>
        have heq := Option.some.inj h
        rw [Prod.mk.injEq, Prod.mk.injEq] at heq
        exact ⟨cfg, w, q, b, hreach, hdone, hq, hb, heq⟩

theorem parse_graph_tiny :
    ∃ w : World, (w.graph (fun _ => false) fun _ => false).Wf ∧
      ∀ p, (w.graph (fun _ => false) fun _ => false).maxjobs p ≠ 0 := by
  obtain ⟨cfg, w, -, -, hreach, hdone, -⟩ := tiny_run
  exact ⟨w, parse_graph (fun _ => false) (fun _ => false) hreach hdone⟩

end Bootsh.Samu.Manifest
