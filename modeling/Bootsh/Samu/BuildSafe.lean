import Mathlib.Data.Finset.Dedup
import Mathlib.Logic.Relation
import Bootsh.Samu.BuildAll

/-!
What `build` does, from the targets on: the commands that it runs and their order, the places in
the pools, and that nothing is left out.
-/
namespace Bootsh.Samu.Build

open Function (update)
open Fallible (each bind_eq_ok map_eq_ok Gives)

variable {w : Records} {o : Options} {p q : Plan} {b b' : State} {e : ℕ}

/-! ### The plan -/

open scoped Classical in
/-- How many inputs of the edge are made by edges that are to be built. -/
noncomputable def awaited (q : Plan) (e : ℕ) : ℕ :=
  (q.graph.ins e).countP fun n =>
    decide (∃ e', q.graph.gen n = some e' ∧ Active q.graph q.marks e')

/-- What the scheduler starts from. -/
structure Counts (w : Records) (q : Plan) : Prop where
  inputs : ∀ e, q.marks.work e = true → ∀ n ∈ q.graph.ins e, Settled w q n
  acyclic : ∀ e, q.marks.work e = true → Acc (Before q.graph) e
  uptodate : ∀ e, q.marks.work e = true → q.graph.phony e = false →
    q.marks.flagDirty e = false → UpToDate w q e
  nblock : ∀ e, q.marks.work e = true → q.sched.nblock e = awaited q e
  queued : ∀ e, .queue e ∈ q.sched.trace ↔
    q.marks.work e = true ∧ q.marks.flagDirty e = true ∧ awaited q e = 0
  ntotal : q.sched.ntotal = (unpruned q.graph q.marks []).card

/-- The edge of an action that counts in `nstarted`. -/
def begunEdge (g : Graph) : Action → Option ℕ
  | .start e => some e
  | .nostart e => some e
  | .skip e => if g.phony e then none else some e
  | _ => none

theorem length_begun (g : Graph) (t : List Action) :
    (t.filterMap (begunEdge g)).length = t.countP (begun g) := by
  rw [List.length_filterMap_eq_countP]
  refine List.countP_congr fun a _ => ?_
  cases a with
  | skip e => cases h : g.phony e <;> simp [begunEdge, begun, h]
  | _ => simp [begunEdge, begun]

theorem count_begun (g : Graph) (t : List Action) (e : ℕ) :
    (t.filterMap (begunEdge g)).count e ≤
      t.count (.start e) + t.count (.nostart e) + t.count (.skip e) := by
  rw [List.count_filterMap]
  induction t with
  | nil => rfl
  | cons a t ih =>
    simp only [List.countP_cons, List.count_cons]
    generalize (t.countP fun a => begunEdge g a == some e) = c at ih
    cases a with
    | start k =>
      by_cases hk : k = e <;> simp [begunEdge, hk] <;> omega
    | nostart k =>
      by_cases hk : k = e <;> simp [begunEdge, hk] <;> omega
    | skip k =>
      by_cases hk : k = e
      · subst hk
        cases hph : g.phony k <;> simp [begunEdge, hph] <;> omega
      · cases hph : g.phony k <;> simp [begunEdge, hph, hk] <;> omega
    | _ => simpa [begunEdge] using ih

/-- The commands of a build. -/
structure Orderly (o : Options) (b : State) : Prop where
  once : ∀ e, b.plan.sched.trace.count (.start e) + b.plan.sched.trace.count (.nostart e) +
    b.plan.sched.trace.count (.skip e) ≤ 1
  needed : ∀ e, .start e ∈ b.plan.sched.trace → b.plan.marks.work e = true ∧
    b.plan.marks.flagDirty e = true ∧ b.plan.graph.phony e = false ∧ o.dryrun = false
  order : InOrder b.plan.graph b.plan.marks b.plan.sched.trace
  ended : ∀ e, b.plan.sched.trace.count (.finish e) + b.plan.sched.trace.count (.fail e) +
    b.running.count e = b.plan.sched.trace.count (.start e)
  jobs : b.running.length ≤ max 1 o.maxjobs
  nfinished : b.nfinished + b.running.length ≤ b.nstarted
  ntotal : b.nstarted ≤ b.plan.sched.ntotal

theorem Good.taken (h : Good o b) (e : ℕ) : b.plan.sched.trace.count (.start e) +
    b.plan.sched.trace.count (.nostart e) + b.plan.sched.trace.count (.skip e) +
      b.plan.sched.trace.count (.prune e) ≤ 1 := by
  have hq := h.located.queued e
  have honce := h.counted.once e
  omega

theorem begunEdge_eq_some {g : Graph} {a : Action} (ha : Allowed o g a)
    (h : begunEdge g a = some e) : g.phony e = false ∧
      (a = .start e ∨ a = .nostart e ∨ a = .skip e) := by
  cases a with
  | start k =>
    cases h
    exact ⟨ha.1, .inl rfl⟩
  | nostart k =>
    cases h
    exact ⟨ha.1, .inr (.inl rfl)⟩
  | skip k =>
    cases hph : g.phony k with
    | true => simp [begunEdge, hph] at h
    | false =>
      simp only [begunEdge, hph, Bool.false_eq_true, if_false, Option.some.injEq] at h
      subst h
      exact ⟨hph, .inr (.inr rfl)⟩
  | _ => cases h

/-- What is begun is among the edges that `ntotal` counts. -/
theorem Good.begun_unpruned (h : Good o b) {a : Action} (ha : a ∈ b.plan.sched.trace)
    (hae : begunEdge b.plan.graph a = some e) :
    e ∈ unpruned b.plan.graph b.plan.marks b.plan.sched.trace := by
  obtain ⟨hphony, hor⟩ := begunEdge_eq_some (h.allowed a ha) hae
  have hcount : 1 ≤ b.plan.sched.trace.count a := List.count_pos_iff.mpr ha
  have htaken := h.taken e
  have hq := h.located.queued e
  have hpos : 1 ≤ b.plan.sched.trace.count (.start e) + b.plan.sched.trace.count (.nostart e) +
      b.plan.sched.trace.count (.skip e) := by
    rcases hor with rfl | rfl | rfl <;> omega
  have hqueue : .queue e ∈ b.plan.sched.trace := List.count_pos_iff.mp (by omega)
  have hprune : .prune e ∉ b.plan.sched.trace := List.count_eq_zero.mp (by omega)
  have hwork := (h.counted.active e (.inl hqueue)).work
  rw [unpruned, Finset.mem_filter, Finset.mem_range, Marks.counts, hwork,
    h.counted.dirty e hqueue, hphony]
  exact ⟨h.counted.bound e hwork, rfl, hprune⟩

theorem Good.nstarted_le (h : Good o b) : b.nstarted ≤ b.plan.sched.ntotal := by
  set l := b.plan.sched.trace.filterMap (begunEdge b.plan.graph) with hl
  have hnodup : l.Nodup := by
    rw [hl, List.nodup_iff_count_le_one]
    intro e
    have hcount := count_begun b.plan.graph b.plan.sched.trace e
    have htaken := h.taken e
    omega
  have hsub : l.toFinset ⊆ unpruned b.plan.graph b.plan.marks b.plan.sched.trace := by
    intro e he
    rw [List.mem_toFinset, hl, List.mem_filterMap] at he
    obtain ⟨a, ha, hae⟩ := he
    exact h.begun_unpruned ha hae
  have hcard := Finset.card_le_card hsub
  have htotal := h.counted.total
  rw [List.toFinset_card_of_nodup hnodup, length_begun, ← h.nstarted] at hcard
  omega

theorem Good.orderly (h : Good o b) : Orderly o b := by
  refine ⟨?_, ?_, h.inOrder, ?_, h.jobs, h.nfinished, h.nstarted_le⟩
  · intro e
    have := h.taken e
    omega
  · intro e he
    have hcount := List.count_pos_iff.mpr he
    have hq := h.located.queued e
    have hqueue : .queue e ∈ b.plan.sched.trace := List.count_pos_iff.mp (by omega)
    exact ⟨(h.counted.active e (.inl hqueue)).work, h.counted.dirty e hqueue, h.allowed _ he⟩
  · intro e
    have := h.located.started e
    omega

/-- The pools of a build: a place is taken by each edge that waits for its command to be started,
and by each one whose command runs; a command that could not be started, or a dry run, does not give
it back. -/
structure PoolsKept (b : State) : Prop where
  places : ∀ k, b.plan.sched.numjobs k = (b.plan.sched.work.countP (b.plan.graph.inPool k) +
    b.running.countP (b.plan.graph.inPool k) +
      b.plan.sched.trace.countP (b.plan.graph.lost k) : ℕ)
  depth : ∀ k, 0 ≤ b.plan.graph.maxjobs k → b.plan.sched.numjobs k ≤ b.plan.graph.maxjobs k
  full : ∀ k, b.plan.sched.poolwork k ≠ [] → b.plan.sched.numjobs k = b.plan.graph.maxjobs k

/-- The command of the edge failed, or could not be started. -/
def Failed (t : List Action) (e : ℕ) : Prop := .fail e ∈ t ∨ .nostart e ∈ t

/-- Without edges on the list and running, and without lost places, no edge waits in a pool. -/
theorem Good.pooled_nil (h : Good o b) (hwork : b.plan.sched.work = []) (hrunning : b.running = [])
    (hpools : ∀ k, b.plan.graph.maxjobs k ≠ 0)
    (hlost : ∀ k, b.plan.sched.trace.countP (b.plan.graph.lost k) = 0) (e : ℕ) :
    b.plan.sched.pooled b.plan.graph e = [] := by
  by_contra hne
  obtain ⟨k, hk⟩ : ∃ k, b.plan.sched.poolwork k ≠ [] := by
    unfold Sched.pooled at hne
    cases hl : b.plan.graph.limit e with
    | none => exact absurd (by rw [hl]; rfl) hne
    | some k =>
      rw [hl] at hne
      exact ⟨k, hne⟩
  have hfull := h.pooled.full k hk
  have hbal := h.pooled.balance k
  have hdepth := hpools k
  rw [hwork, hrunning, hlost k] at hbal
  simp at hbal
  omega

/-- An edge that was queued and waits nowhere, but is not done, has failed. -/
theorem Good.failed (h : Good o b) (hwork : b.plan.sched.work = []) (hrunning : b.running = [])
    (hpool : b.plan.sched.pooled b.plan.graph e = []) (hrel : Released b.plan.sched.trace e)
    (hres : ¬Resolved b.plan.sched.trace e) : Failed b.plan.sched.trace e := by
  have hqueue : .queue e ∈ b.plan.sched.trace :=
    hrel.resolve_right fun hr => hres (.inr (.inr hr))
  have hq := h.located.queued e
  have hs := h.located.started e
  have hpos := List.count_pos_iff.mpr hqueue
  rw [hwork, hpool, List.count_nil] at hq
  rw [hrunning, List.count_nil] at hs
  have hfinish : b.plan.sched.trace.count (.finish e) = 0 :=
    List.count_eq_zero.mpr fun hr => hres (.inl hr)
  have hskip : b.plan.sched.trace.count (.skip e) = 0 :=
    List.count_eq_zero.mpr fun hr => hres (.inr (.inl hr))
  rcases Nat.eq_zero_or_pos (b.plan.sched.trace.count (.fail e)) with hzero | hpos'
  · exact .inr (List.count_pos_iff.mp (by omega))
  · exact .inl (List.count_pos_iff.mp hpos')

/-- An edge that is not released waits for one that is not done. -/
theorem Good.waits (h : Good o b) (hact : Active b.plan.graph b.plan.marks e)
    (hrel : ¬Released b.plan.sched.trace e) : ∃ e', Before b.plan.graph e' e ∧
      Active b.plan.graph b.plan.marks e' ∧ ¬Resolved b.plan.sched.trace e' := by
  classical
  have hblock := h.counted.blocked e hact hrel
  rw [h.counted.waiting e hact.work hrel, outstanding, List.count_nil, Nat.zero_add,
    List.countP_pos_iff] at hblock
  obtain ⟨n, hn, hwait⟩ := hblock
  obtain ⟨e', hgen, hact', hor⟩ := of_decide_eq_true hwait
  exact ⟨e', ⟨n, hn, hgen⟩, hact', hor.resolve_right (by simp)⟩

/-- When nothing can be started any more, and no place of a pool is lost, each edge that was to be
built is done, or waits for one that failed. -/
theorem Good.complete (h : Good o b) (hjobs : 0 < b.maxjobs) (hfail : b.numfail < o.maxfail)
    (hstop : b.stopped o = true) (hpools : ∀ k, b.plan.graph.maxjobs k ≠ 0)
    (hlost : ∀ k, b.plan.sched.trace.countP (b.plan.graph.lost k) = 0)
    (hacc : Acc (Before b.plan.graph) e) (hact : Active b.plan.graph b.plan.marks e) :
    Resolved b.plan.sched.trace e ∨ ∃ f, Failed b.plan.sched.trace f ∧
      Relation.ReflTransGen (Before b.plan.graph) f e := by
  simp only [State.stopped, State.canstart, Bool.and_eq_true, Bool.not_eq_true',
    List.isEmpty_iff] at hstop
  obtain ⟨⟨-, hcan⟩, hrunning⟩ := hstop
  have hwork : b.plan.sched.work = [] := by
    by_contra hne
    rw [hrunning] at hcan
    simp [hne, hjobs, hfail] at hcan
  induction hacc with
  | intro e _ ih =>
    by_cases hres : Resolved b.plan.sched.trace e
    · exact .inl hres
    refine .inr ?_
    by_cases hrel : Released b.plan.sched.trace e
    · have hpool := h.pooled_nil hwork hrunning hpools hlost e
      exact ⟨e, h.failed hwork hrunning hpool hrel hres, .refl⟩
    · obtain ⟨e', hbefore, hact', hnot⟩ := h.waits hact hrel
      obtain ⟨f, hf, hpath⟩ := (ih e' hbefore hact').resolve_left hnot
      exact ⟨f, hf, hpath.tail hbefore⟩

/-- No place is lost without dry runs and without commands of pools that could not be started. -/
theorem Good.lost (h : Good o b) (hdry : o.dryrun = false)
    (hstart : ∀ e, .nostart e ∈ b.plan.sched.trace → b.plan.graph.limit e = none) (k : ℕ) :
    b.plan.sched.trace.countP (b.plan.graph.lost k) = 0 := by
  rw [List.countP_eq_zero]
  intro a ha
  cases a with
  | nostart e => simp [Graph.lost, Graph.inPool, hstart e ha]
  | skip e =>
    have hph : b.plan.graph.phony e = true := (h.allowed _ ha).resolve_right (by simp [hdry])
    simp [Graph.lost, Graph.inPool, Graph.limit, hph]
  | _ => simp [Graph.lost]

/-- When `build` stops before `maxfail` commands have failed, each edge that was to be built is done
or waits for one that failed, and all are done if none failed. -/
theorem build_complete (hw : w.Plain) (hp : Fresh p) (hpools : ∀ k, p.graph.maxjobs k ≠ 0)
    (hjobs : 0 < o.maxjobs) (hdry : o.dryrun = false) (targets : List ℕ) :
    Gives Refused (fun q => ∀ overload evs b, run w o evs (State.begin o overload q) = .ok b →
      b.stopped o = true → b.numfail < o.maxfail →
      (∀ e, .nostart e ∈ b.plan.sched.trace → q.graph.limit e = none) →
      ∀ e, Active q.graph q.marks e → Resolved b.plan.sched.trace e ∨
        (0 < b.numfail ∧ ∃ f, Failed b.plan.sched.trace f ∧
          Relation.ReflTransGen (Before q.graph) f e)) (addtargets w targets p) := by
  refine (addtargets_planned hw hp targets).mono fun q hq overload evs b hb hstop hfail hstart => ?_
  obtain ⟨hgood, hfollow⟩ : Good o b ∧ Follows (State.begin o overload q) b := by
    have hrun := run_good (w := w) (hq.good (o := o) overload) evs
    rwa [hb] at hrun
  have hgraph : b.plan.graph = q.graph := hfollow.graph
  have hactive : Active q.graph b.plan.marks = Active q.graph q.marks := hfollow.flags.active
  intro e hact
  have hacc := (hq.planning.ok e (hq.done hact.work)).acyclic
  have hmax : 0 < b.maxjobs := by
    rcases hgood.maxjobs with h | h <;> omega
  have hpools' : ∀ k, b.plan.graph.maxjobs k ≠ 0 := by
    rw [hgraph, hq.maxjobs]
    exact hpools
  rw [← hgraph] at hstart hacc hact hactive ⊢
  rw [← hactive] at hact
  refine (hgood.complete hmax hfail hstop hpools' (hgood.lost hdry hstart) hacc hact).imp_right ?_
  rintro ⟨f, hf, hpath⟩
  refine ⟨?_, f, hf, hpath⟩
  rw [hgood.numfail, List.countP_pos_iff]
  rcases hf with hf | hf
  · exact ⟨_, hf, rfl⟩
  · exact ⟨_, hf, rfl⟩

/-! ### An example: two commands in a pool with one place -/

def tinyGraph : Graph where
  gen n := if n = 1 then some 0 else if n = 2 then some 1 else if n = 3 then some 2 else none
  use n := if n = 0 then [0, 1] else if n = 1 then [2] else if n = 2 then [2] else []
  outs e := if e = 0 then [1] else if e = 1 then [2] else if e = 2 then [3] else []
  ins e := if e = 0 then [0] else if e = 1 then [0] else if e = 2 then [1, 2] else []
  inorderidx e := if e = 2 then 2 else 1
  phony e := e == 2
  generator _ := false
  restat _ := false
  pool e := if e = 0 then some 0 else if e = 1 then some 0 else none
  maxjobs _ := 1
  edges := 3

def tinyPlan : Plan where
  graph := tinyGraph
  marks :=
    { mtime := fun _ => mtimeUnknown
      logmtime := fun _ => mtimeMissing
      hash := fun _ => 0
      dirty := fun _ => false
      work := fun _ => false
      dirtyIn := fun _ => false
      dirtyOut := fun _ => false
      cycle := fun _ => false
      deps := fun _ => false }
  sched :=
    { nblock := fun _ => 0
      nprune := fun _ => 0
      work := []
      numjobs := fun _ => 0
      poolwork := fun _ => []
      ntotal := 0
      trace := [] }

def tinyRecords : Records where
  stat n := if n = 0 then 7 else mtimeMissing
  deps _ _ := .none
  edgehash _ := 1

theorem tinyPlan_fresh : Fresh tinyPlan := by
  refine ⟨⟨?_, ?_, ?_, ?_, ?_, ?_⟩, fun _ => rfl, fun _ => rfl, fun _ => rfl, rfl, fun _ => rfl,
    fun _ => rfl, rfl, rfl⟩
  · intro n e
    simp only [tinyPlan, tinyGraph]
    split_ifs <;> simp only [List.count_cons, List.count_nil, beq_iff_eq] <;> grind
  · intro n e
    simp only [tinyPlan, tinyGraph]
    split_ifs <;> simp <;> omega
  · intro e
    simp only [tinyPlan, tinyGraph]
    split_ifs <;> simp
  · intro n e
    simp only [tinyPlan, tinyGraph]
    split_ifs <;> intro h <;> cases h <;> decide
  · intro e he
    have he : 3 ≤ e := he
    simp [tinyPlan, tinyGraph, show e ≠ 0 by omega, show e ≠ 1 by omega, show e ≠ 2 by omega]
  · intro e he
    have he : 3 ≤ e := he
    simp [tinyPlan, tinyGraph, Graph.limit, show e ≠ 0 by omega, show e ≠ 1 by omega]

def tinyEvents : List Event :=
  [.start true, .poll, .done 0 false fun _ => 8, .again false, .start true, .poll,
    .done 1 false fun _ => 9, .again false, .start true]

def tinyTrace : List Action :=
  [.skip 2, .queue 2, .finish 1, .start 1, .finish 0, .start 0, .queue 1, .queue 0]

def tinyOptions : Options where
  maxjobs := 4
  maxfail := 1
  dryrun := false

theorem tiny_run : ∃ q b, addtargets tinyRecords [3] tinyPlan = .ok q ∧
    run tinyRecords tinyOptions tinyEvents (State.begin tinyOptions false q) = .ok b ∧
    b.stopped tinyOptions = true ∧ b.numfail = 0 ∧ b.plan.sched.trace = tinyTrace := by
  have hrun : ((addtargets tinyRecords [3] tinyPlan).bind fun q =>
      run tinyRecords tinyOptions tinyEvents (State.begin tinyOptions false q)).map
        (fun b => (b.stopped tinyOptions, b.numfail, b.plan.sched.trace)) =
      .ok (true, 0, tinyTrace) := rfl
  obtain ⟨b, hb, heq⟩ := map_eq_ok.mp hrun
  obtain ⟨q, hq, hb⟩ := bind_eq_ok.mp hb
  rw [Prod.mk.injEq, Prod.mk.injEq] at heq
  exact ⟨q, b, hq, hb, heq⟩

theorem tinyRecords_plain : tinyRecords.Plain := fun _ _ _ => rfl

end Bootsh.Samu.Build
