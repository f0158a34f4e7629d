import Bootsh.Samu.BuildDeps

/-!
Planning: `buildadd` leaves the counters as the scheduler needs them.
-/
namespace Bootsh.Samu.Build

open Function (update)
open Fallible (each bind_eq_ok)

/-- The edge `k` makes an input of `e`. -/
def Before (g : Graph) (k e : ℕ) : Prop := ∃ n ∈ g.ins e, g.gen n = some k

/-- The time of a node once `nodestat` has been called for it. -/
def time (w : Records) (m : Marks) (n : ℕ) : ℤ := (m.statUnknown w n).mtime n

/-- `buildadd` has been through with the edge. -/
def Plan.Done (p : Plan) (e : ℕ) : Prop := p.marks.work e = true ∧ p.marks.cycle e = false

/-- The node exists, and at most an edge without inputs makes it, which does nothing. -/
structure Quiet (w : Records) (p : Plan) (n : ℕ) : Prop where
  exists_ : time w p.marks n ≠ mtimeMissing
  phony : ∀ q, p.graph.gen n = some q → p.graph.phony q = true
  ins : ∀ q, p.graph.gen n = some q → p.graph.ins q = []
  outs : ∀ q, p.graph.gen n = some q → p.graph.outs q = [n]
  clean : ∀ q, p.graph.gen n = some q → p.marks.flagDirty q = false
  free : ∀ q, p.graph.gen n = some q → p.marks.work q = true → p.sched.nblock q = 0

/-- `buildadd` has been called for the node; or an edge for it came only afterwards. -/
def Settled (w : Records) (p : Plan) (n : ℕ) : Prop :=
  Quiet w p n ∨ ∃ e, p.graph.gen n = some e ∧ p.Done e

/-- An edge that waits for the node has to wait for the edge that makes it. -/
def blocking (p : Plan) (n : ℕ) : Bool := (p.graph.gen n).any fun e =>
  p.marks.work e && !p.marks.cycle e && (p.marks.flagDirty e || decide (0 < p.sched.nblock e))

/-- What concerns the edge is the same. -/
structure Kept (p p' : Plan) (e : ℕ) : Prop where
  work : p'.marks.work e = p.marks.work e
  cycle : p'.marks.cycle e = p.marks.cycle e
  dirtyIn : p'.marks.dirtyIn e = p.marks.dirtyIn e
  dirtyOut : p'.marks.dirtyOut e = p.marks.dirtyOut e
  nblock : p'.sched.nblock e = p.sched.nblock e
  nprune : p'.sched.nprune e = p.sched.nprune e
  ins : p'.graph.ins e = p.graph.ins e
  outs : p'.graph.outs e = p.graph.outs e
  phony : p'.graph.phony e = p.graph.phony e
  inorderidx : p'.graph.inorderidx e = p.graph.inorderidx e
  generator : p'.graph.generator e = p.graph.generator e
  restat : p'.graph.restat e = p.graph.restat e
  dirty : ∀ n ∈ p.graph.outs e, p'.marks.dirty n = p.marks.dirty n
  queued : p'.sched.trace.count (.queue e) = p.sched.trace.count (.queue e)

/-- What `buildadd` keeps, for the edges of `K` as far as it has been called for them. -/
structure Keeps (w : Records) (K : ℕ → Prop) (p p' : Plan) : Prop where
  edge : ∀ e, p.marks.work e = true → K e → Kept p p' e
  gen : ∀ n e, p.graph.gen n = some e → p'.graph.gen n = some e
  quiet : ∀ n, Quiet w p n → Quiet w p' n
  time : ∀ n, time w p'.marks n = time w p.marks n
  known : ∀ n, p.marks.mtime n = Build.time w p.marks n → p'.marks.mtime n = Build.time w p'.marks n
  logmtime : p'.marks.logmtime = p.marks.logmtime
  hash : p'.marks.hash = p.marks.hash

/-- The edge that makes the node is not dirty. -/
def Clean (p : Plan) (n : ℕ) : Prop := ∀ e, p.graph.gen n = some e → p.marks.flagDirty e = false

/-- The outputs of the edge exist, and are as new as the inputs that are not only for the order, by
the files and by the log; and the log has the hash of the command. -/
structure UpToDate (w : Records) (p : Plan) (e : ℕ) : Prop where
  clean : ∀ k ∈ (p.graph.ins e).take (p.graph.inorderidx e), Clean p k
  exists_ : ∀ n ∈ p.graph.outs e, time w p.marks n ≠ mtimeMissing
  newer : ∀ n ∈ p.graph.outs e, ∀ k ∈ (p.graph.ins e).take (p.graph.inorderidx e),
    time w p.marks k ≠ mtimeMissing →
      (time w p.marks k ≤ time w p.marks n ∨ p.graph.restat e = true) ∧
        (p.marks.logmtime n ≠ mtimeMissing → time w p.marks k ≤ p.marks.logmtime n)
  logged : p.graph.generator e = false → ∀ n ∈ p.graph.outs e,
    p.marks.logmtime n ≠ mtimeMissing ∧ w.edgehash e = p.marks.hash n

/-- What `buildadd` gives an edge. -/
structure EdgeOk (w : Records) (p : Plan) (e : ℕ) : Prop where
  dirty : ∀ n ∈ p.graph.outs e, p.marks.dirty n = p.marks.flagDirty e
  settled : ∀ n ∈ p.graph.ins e, Settled w p n
  nblock : p.sched.nblock e = (p.graph.ins e).countP (blocking p)
  nprune : p.marks.dirtyOut e = false → p.sched.nprune e = p.sched.nblock e
  queued : .queue e ∈ p.sched.trace ↔ p.marks.flagDirty e = true ∧ p.sched.nblock e = 0
  acyclic : Acc (Before p.graph) e
  known : ∀ n ∈ p.graph.outs e, p.marks.mtime n = time w p.marks n
  uptodate : p.graph.phony e = false → p.marks.flagDirty e = false → UpToDate w p e

/-- What holds while edges are added. -/
structure Planning (w : Records) (p : Plan) : Prop where
  wf : p.graph.Wf
  bound : ∀ e, p.marks.work e = true → e < p.graph.edges
  cycle : ∀ e, p.marks.cycle e = true → p.marks.work e = true
  clean : ∀ e, p.marks.work e = false → p.marks.flagDirty e = false
  trace : ∀ a ∈ p.sched.trace, ∃ e, a = .queue e
  once : ∀ e, p.sched.trace.count (.queue e) ≤ 1
  queued : ∀ e, .queue e ∈ p.sched.trace → p.Done e
  total : ∃ l : Finset ℕ, p.sched.ntotal = l.card ∧
    ∀ e, e ∈ l ↔ p.Done e ∧ p.marks.flagDirty e = true ∧ p.graph.phony e = false
  located : Located p.graph [] p.sched
  pooled : Pooled p.graph [] p.sched
  ok : ∀ e, p.Done e → EdgeOk w p e

variable {w : Records} {K : ℕ → Prop} {p p' p'' : Plan} {e n : ℕ}

theorem Kept.flagDirty (h : Kept p p' e) : p'.marks.flagDirty e = p.marks.flagDirty e := by
  rw [Marks.flagDirty, Marks.flagDirty, h.dirtyIn, h.dirtyOut]

theorem Kept.trans (h : Kept p p' e) (h' : Kept p' p'' e) : Kept p p'' e where
  work := h'.work.trans h.work
  cycle := h'.cycle.trans h.cycle
  dirtyIn := h'.dirtyIn.trans h.dirtyIn
  dirtyOut := h'.dirtyOut.trans h.dirtyOut
  nblock := h'.nblock.trans h.nblock
  nprune := h'.nprune.trans h.nprune
  ins := h'.ins.trans h.ins
  outs := h'.outs.trans h.outs
  phony := h'.phony.trans h.phony
  inorderidx := h'.inorderidx.trans h.inorderidx
  generator := h'.generator.trans h.generator
  restat := h'.restat.trans h.restat
  dirty n hn := (h'.dirty n (h.outs ▸ hn)).trans (h.dirty n hn)
  queued := h'.queued.trans h.queued

theorem Keeps.trans {K' K'' : ℕ → Prop} (h : Keeps w K p p') (h' : Keeps w K' p' p'')
    (hK : ∀ e, p.marks.work e = true → K'' e → K e ∧ K' e) : Keeps w K'' p p'' where
  edge e hw he := by
    have hkept := h.edge e hw (hK e hw he).1
    exact hkept.trans (h'.edge e (hkept.work.trans hw) (hK e hw he).2)
  gen n e hn := h'.gen n e (h.gen n e hn)
  quiet n hn := h'.quiet n (h.quiet n hn)
  time n := (h'.time n).trans (h.time n)
  known n hn := h'.known n (h.known n hn)
  logmtime := h'.logmtime.trans h.logmtime
  hash := h'.hash.trans h.hash

theorem Kept.done (h : Kept p p' e) : p'.Done e ↔ p.Done e := by
  rw [Plan.Done, Plan.Done, h.work, h.cycle]

theorem Quiet.not_blocking (h : Quiet w p n) : blocking p n = false := by
  unfold blocking
  cases hgen : p.graph.gen n with
  | none => rfl
  | some q =>
    rw [Option.any_some, h.clean q hgen]
    cases hw : p.marks.work q with
    | false => rfl
    | true => simp [h.free q hgen hw]

theorem Keeps.settled (h : Keeps w K p p') (hK : ∀ e, p.Done e → K e) (hn : Settled w p n) :
    Settled w p' n := by
  rcases hn with hn | ⟨e, hgen, hd⟩
  · exact .inl (h.quiet n hn)
  · exact .inr ⟨e, h.gen n e hgen, (h.edge e hd.1 (hK e hd)).done.mpr hd⟩

theorem Keeps.blocking (h : Keeps w K p p') (hK : ∀ e, p.Done e → K e) (hn : Settled w p n) :
    blocking p' n = blocking p n := by
  rcases hn with hn | ⟨e, hgen, hd⟩
  · rw [hn.not_blocking, (h.quiet n hn).not_blocking]
  · have hkept := h.edge e hd.1 (hK e hd)
    rw [Build.blocking, Build.blocking, hgen, h.gen n e hgen]
    simp only [Option.any_some, hkept.work, hkept.cycle, hkept.flagDirty, hkept.nblock]

/-- Edges that are done stay free of cycles. -/
theorem Keeps.acyclic (h : Keeps w K p p') (hK : ∀ e, p.Done e → K e)
    (hset : ∀ e, p.Done e → ∀ n ∈ p.graph.ins e, Settled w p n) (hacc : Acc (Before p.graph) e)
    (hd : p.Done e) : Acc (Before p'.graph) e := by
  induction hacc with
  | intro e _ ih =>
    refine Acc.intro e ?_
    rintro k ⟨n, hn, hgen⟩
    rw [(h.edge e hd.1 (hK e hd)).ins] at hn
    rcases hset e hd n hn with hq | ⟨k', hgen', hd'⟩
    · refine Acc.intro k ?_
      rintro k' ⟨n', hn', -⟩
      rw [(h.quiet n hq).ins k hgen] at hn'
      cases hn'
    · have heq := h.gen n k' hgen'
      rw [hgen] at heq
      cases heq
      exact ih k ⟨n, hn, hgen'⟩ hd'

theorem Keeps.clean (h : Keeps w K p p') (hK : ∀ e, p.Done e → K e) (hn : Settled w p n)
    (hclean : Clean p n) : Clean p' n := by
  rcases hn with hn | ⟨e, hgen, hd⟩
  · exact (h.quiet n hn).clean
  · intro k hk
    rw [h.gen n e hgen] at hk
    cases hk
    rw [(h.edge e hd.1 (hK e hd)).flagDirty]
    exact hclean e hgen

theorem Keeps.uptodate (h : Keeps w K p p') (hK : ∀ e, p.Done e → K e) (hkept : Kept p p' e)
    (hset : ∀ n ∈ p.graph.ins e, Settled w p n) (he : UpToDate w p e) : UpToDate w p' e := by
  refine ⟨?_, ?_, ?_, ?_⟩
  · rw [hkept.ins, hkept.inorderidx]
    exact fun k hk => h.clean hK (hset k (List.mem_of_mem_take hk)) (he.clean k hk)
  · rw [hkept.outs]
    simpa only [h.time] using he.exists_
  · rw [hkept.outs, hkept.ins, hkept.inorderidx, hkept.restat, h.logmtime]
    simpa only [h.time] using he.newer
  · rw [hkept.outs, hkept.generator, h.logmtime, h.hash]
    exact he.logged

theorem Keeps.ok (h : Keeps w K p p') (hK : ∀ e, p.Done e → K e)
    (hok : ∀ e, p.Done e → EdgeOk w p e) (hd : p.Done e) : EdgeOk w p' e := by
  have hkept := h.edge e hd.1 (hK e hd)
  have he := hok e hd
  refine ⟨?_, ?_, ?_, ?_, ?_, ?_, ?_, ?_⟩
  · intro n hn
    rw [hkept.outs] at hn
    rw [hkept.dirty n hn, hkept.flagDirty, he.dirty n hn]
  · intro n hn
    rw [hkept.ins] at hn
    exact h.settled hK (he.settled n hn)
  · rw [hkept.nblock, hkept.ins, he.nblock]
    exact List.countP_congr fun n hn => by rw [h.blocking hK (he.settled n hn)]
  · rw [hkept.dirtyOut, hkept.nprune, hkept.nblock]
    exact he.nprune
  · rw [← List.count_pos_iff, hkept.queued, List.count_pos_iff, hkept.flagDirty, hkept.nblock]
    exact he.queued
  · exact h.acyclic hK (fun e hd => (hok e hd).settled) he.acyclic hd
  · intro n hn
    rw [hkept.outs] at hn
    exact h.known n (he.known n hn)
  · rw [hkept.phony, hkept.flagDirty]
    exact fun hph hd => h.uptodate hK hkept he.settled (he.uptodate hph hd)

theorem Keeps.refl (p : Plan) : Keeps w K p p where
  edge _ _ _ := ⟨rfl, rfl, rfl, rfl, rfl, rfl, rfl, rfl, rfl, rfl, rfl, rfl, fun _ _ => rfl, rfl⟩
  gen _ _ h := h
  quiet _ h := h
  time _ := rfl
  known _ h := h
  logmtime := rfl
  hash := rfl

theorem Located.congr {g g' : Graph} {running : List ℕ} {s s' : Sched}
    (h : Located g running s) (hl : g'.limit = g.limit) (hw : s'.work = s.work)
    (hp : s'.poolwork = s.poolwork) (ht : s'.trace = s.trace) : Located g' running s' := by
  have hpool : ∀ e, s'.pooled g' e = s.pooled g e := by
    intro e
    rw [Sched.pooled, Sched.pooled, hl, hp]
  refine ⟨?_, ?_, ?_⟩
  · intro e
    rw [ht, hw, hpool]
    exact h.queued e
  · intro e
    rw [ht]
    exact h.started e
  · rw [hp, hl]
    exact h.limit

theorem Pooled.congr {g g' : Graph} {running : List ℕ} {s s' : Sched}
    (h : Pooled g running s) (hl : g'.limit = g.limit) (hm : g'.maxjobs = g.maxjobs)
    (hw : s'.work = s.work) (hn : s'.numjobs = s.numjobs) (hp : s'.poolwork = s.poolwork)
    (ht : s'.trace = s.trace) : Pooled g' running s' := by
  have hin : g'.inPool = g.inPool := by
    funext p e
    rw [Graph.inPool, Graph.inPool, hl]
  have hlost : g'.lost = g.lost := by
    funext p a
    cases a <;> simp only [Graph.lost, hin]
  refine ⟨?_, ?_, ?_⟩
  · rw [hn, hw, ht, hin, hlost]
    exact h.balance
  · rw [hn, hp, hm]
    exact h.full
  · rw [hn, hm]
    exact h.le

/-- `buildadd` may still go through the inputs of the edge. -/
def Plan.Pending (p : Plan) (e : ℕ) : Prop := e < p.graph.edges ∧ p.marks.work e = false ∧
  ¬(p.graph.phony e = true ∧ p.graph.ins e = [])

/-- Only what concerns the edge `e`, which is being added, differs. -/
structure Only (w : Records) (e : ℕ) (p p' : Plan) : Prop where
  keeps : Keeps w (· ≠ e) p p'
  wf : p'.graph.Wf
  edges : p.graph.edges ≤ p'.graph.edges
  limit : p'.graph.limit = p.graph.limit
  maxjobs : p'.graph.maxjobs = p.graph.maxjobs
  flags : ∀ k, k ≠ e → p'.marks.work k = p.marks.work k ∧ p'.marks.cycle k = p.marks.cycle k ∧
    p'.marks.flagDirty k = p.marks.flagDirty k
  work : p'.sched.work = p.sched.work
  numjobs : p'.sched.numjobs = p.sched.numjobs
  poolwork : p'.sched.poolwork = p.sched.poolwork
  trace : p'.sched.trace = p.sched.trace
  ntotal : p'.sched.ntotal = p.sched.ntotal
  pending : ∀ k, p'.Pending k → p.Pending k

/-- The edge is being added. -/
def Plan.Adding (p : Plan) (e : ℕ) : Prop := p.marks.work e = true ∧ p.marks.cycle e = true

theorem Only.done (h : Only w e p p') (hadd : p'.Adding e) (hnot : ¬p.Done e) (k : ℕ) :
    p'.Done k ↔ p.Done k := by
  by_cases hk : k = e
  · subst hk
    refine iff_of_false ?_ hnot
    intro hd
    have hcycle := hadd.2.symm.trans hd.2
    cases hcycle
  · rw [Plan.Done, Plan.Done, (h.flags k hk).1, (h.flags k hk).2.1]

theorem Planning.only (hp : Planning w p) (h : Only w e p p') (hadd : p'.Adding e)
    (hnot : ¬p.Done e) (he : e < p.graph.edges) : Planning w p' := by
  have hdone := h.done hadd hnot
  have hne : ∀ k, p.Done k → k ≠ e := by
    rintro k hk rfl
    exact hnot hk
  have hkept : ∀ k, p.Done k → Kept p p' k := fun k hk => h.keeps.edge k hk.1 (hne k hk)
  refine ⟨h.wf, ?_, ?_, ?_, ?_, ?_, ?_, ?_, ?_, ?_, ?_⟩
  · intro k hk
    by_cases hke : k = e
    · exact hke ▸ he.trans_le h.edges
    · rw [(h.flags k hke).1] at hk
      exact (hp.bound k hk).trans_le h.edges
  · intro k hk
    by_cases hke : k = e
    · exact hke ▸ hadd.1
    · rw [(h.flags k hke).2.1] at hk
      rw [(h.flags k hke).1]
      exact hp.cycle k hk
  · intro k hk
    by_cases hke : k = e
    · subst hke
      rw [hadd.1] at hk
      cases hk
    · rw [(h.flags k hke).1] at hk
      rw [(h.flags k hke).2.2]
      exact hp.clean k hk
  · rw [h.trace]
    exact hp.trace
  · rw [h.trace]
    exact hp.once
  · intro k hk
    rw [h.trace] at hk
    exact (hdone k).mpr (hp.queued k hk)
  · obtain ⟨l, hl, hmem⟩ := hp.total
    refine ⟨l, h.ntotal.trans hl, ?_⟩
    intro k
    rw [hmem, hdone]
    refine and_congr_right fun hk => ?_
    rw [(hkept k hk).flagDirty, (hkept k hk).phony]
  · exact hp.located.congr h.limit h.work h.poolwork h.trace
  · exact hp.pooled.congr h.limit h.maxjobs h.work h.numjobs h.poolwork h.trace
  · intro k hk
    exact h.keeps.ok hne hp.ok ((hdone k).mp hk)

/-- Only what belongs to the edge `e` differs, and what has been added to the graph. -/
structure Touched (w : Records) (e : ℕ) (p p' : Plan) : Prop where
  wf : p'.graph.Wf
  extend : Extends p.graph p'.graph
  ins : ∀ k, k ≠ e → p'.graph.ins k = p.graph.ins k
  inorderidx : ∀ k, k ≠ e → k < p.graph.edges → p'.graph.inorderidx k = p.graph.inorderidx k
  work : ∀ k, k ≠ e → p'.marks.work k = p.marks.work k
  cycle : ∀ k, k ≠ e → p'.marks.cycle k = p.marks.cycle k
  dirtyIn : ∀ k, k ≠ e → p'.marks.dirtyIn k = p.marks.dirtyIn k
  dirtyOut : ∀ k, k ≠ e → p'.marks.dirtyOut k = p.marks.dirtyOut k
  dirty : ∀ n, n ∉ p.graph.outs e → p'.marks.dirty n = p.marks.dirty n
  time : ∀ n, Build.time w p'.marks n = Build.time w p.marks n
  known : ∀ n, p.marks.mtime n = Build.time w p.marks n →
    p'.marks.mtime n = Build.time w p'.marks n
  logmtime : p'.marks.logmtime = p.marks.logmtime
  hash : p'.marks.hash = p.marks.hash
  nblock : ∀ k, k ≠ e → p'.sched.nblock k = p.sched.nblock k
  nprune : p'.sched.nprune = p.sched.nprune
  lists : SameLists p.sched p'.sched
  ntotal : p'.sched.ntotal = p.sched.ntotal

theorem Touched.flagDirty (h : Touched w e p p') {k : ℕ} (hk : k ≠ e) :
    p'.marks.flagDirty k = p.marks.flagDirty k := by
  rw [Marks.flagDirty, Marks.flagDirty, h.dirtyIn k hk, h.dirtyOut k hk]

theorem Touched.kept (h : Touched w e p p') (hg : p.graph.Wf) {k : ℕ} (hlt : k < p.graph.edges)
    (hk : k ≠ e) : Kept p p' k where
  work := h.work k hk
  cycle := h.cycle k hk
  dirtyIn := h.dirtyIn k hk
  dirtyOut := h.dirtyOut k hk
  nblock := h.nblock k hk
  nprune := by rw [h.nprune]
  ins := h.ins k hk
  outs := h.extend.outs k hlt
  phony := h.extend.phony k hlt
  inorderidx := h.inorderidx k hk hlt
  generator := by rw [h.extend.generator]
  restat := by rw [h.extend.restat]
  dirty n hn := h.dirty n fun hn' => hk (hg.eq_of_mem_outs hn' hn)
  queued := by rw [h.lists.trace]

/-- An edge that has been added for a quiet node does nothing. -/
theorem Touched.fresh (h : Touched w e p p') (hp : Planning w p) (he : e < p.graph.edges) {k : ℕ}
    (hnone : p.graph.gen n = none) (hgen : p'.graph.gen n = some k) :
    p'.graph.phony k = true ∧ p'.graph.ins k = [] ∧ p'.graph.outs k = [n] ∧
      p'.marks.flagDirty k = false ∧ (p'.marks.work k = true → p'.sched.nblock k = 0) := by
  obtain ⟨hge, hphony, hins, houts⟩ := h.extend.fresh n k hnone hgen
  have hne : k ≠ e := by
    rintro rfl
    exact absurd he (Nat.not_lt.mpr hge)
  have hidle : p.marks.work k = false := by
    rw [← Bool.not_eq_true]
    exact fun hk => absurd (hp.bound k hk) (Nat.not_lt.mpr hge)
  refine ⟨hphony, hins, houts, (h.flagDirty hne).trans (hp.clean k hidle), ?_⟩
  intro hk
  rw [h.work k hne, hidle] at hk
  cases hk

/-- A quiet node stays so, if the edge does nothing when it makes the node. -/
theorem Touched.quiet (h : Touched w e p p') (hp : Planning w p) (he : e < p.graph.edges)
    (hn : Quiet w p n) (hself : p.graph.gen n = some e → p'.graph.ins e = [] ∧
      p'.marks.flagDirty e = false ∧ p'.sched.nblock e = 0) : Quiet w p' n := by
  have hk : ∀ k, p'.graph.gen n = some k → p'.graph.phony k = true ∧ p'.graph.ins k = [] ∧
      p'.graph.outs k = [n] ∧ p'.marks.flagDirty k = false ∧
      (p'.marks.work k = true → p'.sched.nblock k = 0) := by
    intro k hgen'
    cases hgen : p.graph.gen n with
    | none => exact h.fresh hp he hgen hgen'
    | some k₀ =>
      have heq := h.extend.gen n k₀ hgen
      rw [hgen'] at heq
      cases heq
      have hlt := hp.wf.lt_edges n k hgen
      have hphony := (h.extend.phony k hlt).trans (hn.phony k hgen)
      have houts := (h.extend.outs k hlt).trans (hn.outs k hgen)
      by_cases hne : k = e
      · subst hne
        obtain ⟨hins, hclean, hfree⟩ := hself hgen
        exact ⟨hphony, hins, houts, hclean, fun _ => hfree⟩
      · refine ⟨hphony, (h.ins k hne).trans (hn.ins k hgen), houts,
          (h.flagDirty hne).trans (hn.clean k hgen), ?_⟩
        rw [h.work k hne, h.nblock k hne]
        exact hn.free k hgen
  exact ⟨fun hm => hn.exists_ ((h.time n).symm.trans hm), fun k hgen => (hk k hgen).1,
    fun k hgen => (hk k hgen).2.1, fun k hgen => (hk k hgen).2.2.1,
    fun k hgen => (hk k hgen).2.2.2.1, fun k hgen => (hk k hgen).2.2.2.2⟩

theorem Touched.pending (h : Touched w e p p') {k : ℕ} (hk : k ≠ e) (hpend : p'.Pending k) :
    p.Pending k := by
  obtain ⟨hlt, hidle, hdeep⟩ := hpend
  have hold : k < p.graph.edges := Nat.lt_of_not_le fun hge => hdeep (h.extend.added k hge hlt)
  refine ⟨hold, (h.work k hk).symm.trans hidle, ?_⟩
  rintro ⟨hphony, hnil⟩
  exact hdeep ⟨(h.extend.phony k hold).trans hphony, (h.ins k hk).trans hnil⟩

theorem Touched.only (h : Touched w e p p') (hp : Planning w p) (he : e < p.graph.edges)
    (hself : ∀ n, Quiet w p n → p.graph.gen n = some e → p'.graph.ins e = [] ∧
      p'.marks.flagDirty e = false ∧ p'.sched.nblock e = 0)
    (hpend : p'.Pending e → p.Pending e) : Only w e p p' where
  keeps :=
    { edge := fun k hk hne => h.kept hp.wf (hp.bound k hk) hne
      gen := h.extend.gen
      quiet := fun n hn => h.quiet hp he hn (hself n hn)
      time := h.time
      known := h.known
      logmtime := h.logmtime
      hash := h.hash }
  wf := h.wf
  edges := h.extend.edges
  limit := h.extend.limit
  maxjobs := h.extend.maxjobs
  flags k hk := ⟨h.work k hk, h.cycle k hk, h.flagDirty hk⟩
  work := h.lists.work
  numjobs := h.lists.numjobs
  poolwork := h.lists.poolwork
  trace := h.lists.trace
  ntotal := h.ntotal
  pending k hk := by
    by_cases hne : k = e
    · exact hne ▸ hpend (hne ▸ hk)
    · exact h.pending hne hk

/-! ### Entering an edge -/

theorem statUnknown_mtime {m : Marks} (k : ℕ) : (m.statUnknown w k).mtime n =
    if n = k ∧ m.mtime k = mtimeUnknown then w.stat k else m.mtime n := by
  unfold Marks.statUnknown
  by_cases hm : m.mtime k = mtimeUnknown
  · rw [if_pos hm]
    simp [hm, Function.update_apply]
  · rw [if_neg hm]
    simp [hm]

theorem time_eq {m : Marks} :
    time w m n = if m.mtime n = mtimeUnknown then w.stat n else m.mtime n := by
  rw [time, statUnknown_mtime]
  simp

theorem time_statUnknown {m : Marks} (k : ℕ) : time w (m.statUnknown w k) n = time w m n := by
  rw [time_eq, time_eq, statUnknown_mtime]
  by_cases hk : n = k ∧ m.mtime k = mtimeUnknown
  · obtain ⟨rfl, hm⟩ := hk
    simp [hm]
  · rw [if_neg hk]

/-- The loop over the outputs at the beginning. -/
structure Reset (w : Records) (outs : List ℕ) (m m' : Marks) : Prop where
  work : m'.work = m.work
  cycle : m'.cycle = m.cycle
  dirtyIn : m'.dirtyIn = m.dirtyIn
  dirtyOut : m'.dirtyOut = m.dirtyOut
  deps : m'.deps = m.deps
  logmtime : m'.logmtime = m.logmtime
  hash : m'.hash = m.hash
  dirty : ∀ n, m'.dirty n = if n ∈ outs then false else m.dirty n
  time : ∀ n, time w m' n = time w m n
  mtime : ∀ n, n ∈ outs ∨ m.mtime n = Build.time w m n → m'.mtime n = Build.time w m n

theorem reset_outs (outs : List ℕ) (m : Marks) : Reset w outs m (outs.foldl
    (fun m n => Marks.statUnknown w n { m with dirty := update m.dirty n false }) m) := by
  induction outs generalizing m with
  | nil =>
    exact ⟨rfl, rfl, rfl, rfl, rfl, rfl, rfl, fun n => by simp, fun _ => rfl,
      fun n hn => by simpa using hn⟩
  | cons k outs ih =>
    set m₁ : Marks := { m with dirty := update m.dirty k false } with hm₁
    have hdirty : ∀ n, time w m₁ n = time w m n := fun n => by rw [time_eq, time_eq]
    have htime : ∀ n, time w (m₁.statUnknown w k) n = time w m n := fun n =>
      (time_statUnknown k).trans (hdirty n)
    have hsame : (m₁.statUnknown w k).work = m.work ∧ (m₁.statUnknown w k).cycle = m.cycle ∧
        (m₁.statUnknown w k).dirtyIn = m.dirtyIn ∧ (m₁.statUnknown w k).dirtyOut = m.dirtyOut ∧
        (m₁.statUnknown w k).deps = m.deps ∧ (m₁.statUnknown w k).dirty = m₁.dirty ∧
        (m₁.statUnknown w k).logmtime = m.logmtime ∧ (m₁.statUnknown w k).hash = m.hash := by
      unfold Marks.statUnknown
      split <;> exact ⟨rfl, rfl, rfl, rfl, rfl, rfl, rfl, rfl⟩
    obtain ⟨h₁, h₂, h₃, h₄, h₅, h₆, h₇, h₈⟩ := hsame
    have h := ih (m₁.statUnknown w k)
    refine ⟨h.work.trans h₁, h.cycle.trans h₂, h.dirtyIn.trans h₃, h.dirtyOut.trans h₄,
      h.deps.trans h₅, h.logmtime.trans h₇, h.hash.trans h₈, ?_,
      fun n => (h.time n).trans (htime n), ?_⟩
    · intro n
      rw [List.foldl_cons, h.dirty, h₆]
      by_cases hn : n = k
      · simp [hn, hm₁]
      · simp [hn, hm₁]
    · intro n hn
      rw [List.foldl_cons, ← htime n]
      refine h.mtime n ?_
      by_cases hnk : n = k
      · subst hnk
        exact .inr ((hdirty n).trans (htime n).symm)
      · rcases hn with hn | hn
        · exact .inl ((List.mem_cons.mp hn).resolve_left hnk)
        · rw [htime, statUnknown_mtime, if_neg (fun h => hnk h.1)]
          exact .inr hn

/-- What `depsload` may change for the edge `e`. -/
structure Loaded (e : ℕ) (p p' : Plan) : Prop where
  sched : p'.sched = p.sched
  wf : p'.graph.Wf
  extend : Extends p.graph p'.graph
  ins : ∀ k, k ≠ e → p'.graph.ins k = p.graph.ins k
  inorderidx : ∀ k, k ≠ e → k < p.graph.edges → p'.graph.inorderidx k = p.graph.inorderidx k
  work : p'.marks.work = p.marks.work
  cycle : p'.marks.cycle = p.marks.cycle
  dirtyIn : p'.marks.dirtyIn = p.marks.dirtyIn
  dirtyOut : ∀ k, k ≠ e → p'.marks.dirtyOut k = p.marks.dirtyOut k
  mtime : p'.marks.mtime = p.marks.mtime
  logmtime : p'.marks.logmtime = p.marks.logmtime
  hash : p'.marks.hash = p.marks.hash
  dirty : ∀ n, n ∉ p.graph.outs e → p'.marks.dirty n = p.marks.dirty n
  same : p'.marks.dirtyOut e = false → p'.marks.dirty = p.marks.dirty
  plain : p.graph.phony e = true →
    p'.marks.dirtyOut e = p.marks.dirtyOut e ∧ p'.graph.ins e = p.graph.ins e

/-- The edges of `phony` have no dependencies to load. -/
def Records.Plain (w : Records) : Prop := ∀ p e, p.graph.phony e = true → w.deps p e = .none

theorem depsload_loaded (hw : w.Plain) (hg : p.graph.Wf) (he : e < p.graph.edges) :
    Loaded e p (depsload w e p) := by
  unfold depsload
  split
  case isTrue =>
    exact ⟨rfl, hg, .refl _, fun _ _ => rfl, fun _ _ _ => rfl, rfl, rfl, rfl, fun _ _ => rfl, rfl,
      rfl, rfl, fun _ _ => rfl, fun _ => rfl, fun _ => ⟨rfl, rfl⟩⟩
  case isFalse =>
    cases hd : w.deps p e with
    | none =>
      exact ⟨rfl, hg, .refl _, fun _ _ => rfl, fun _ _ _ => rfl, rfl, rfl, rfl, fun _ _ => rfl, rfl,
        rfl, rfl, fun _ _ => rfl, fun _ => rfl, fun _ => ⟨rfl, rfl⟩⟩
    | nodes l =>
      obtain ⟨hwf, hext, hins, hidx⟩ := hg.edgeadddeps he l
      refine ⟨rfl, hwf, hext, hins, hidx, rfl, rfl, rfl, fun _ _ => rfl, rfl, rfl, rfl,
        fun _ _ => rfl, fun _ => rfl, ?_⟩
      intro hph
      rw [hw p e hph] at hd
      cases hd
    | missing =>
      refine ⟨rfl, hg, .refl _, fun _ _ => rfl, fun _ _ _ => rfl, rfl, rfl, rfl, ?_, rfl, rfl, rfl,
        ?_, ?_, ?_⟩
      · exact fun k hk => Function.update_of_ne hk ..
      · intro n hn
        cases houts : p.graph.outs e with
        | nil => rfl
        | cons k outs =>
          have hnk : n ≠ k := by
            rintro rfl
            exact hn (houts ▸ List.mem_cons_self)
          exact Function.update_of_ne hnk ..
      · intro h
        simp at h
      · intro hph
        rw [hw p e hph] at hd
        cases hd

/-- The state in which the inputs of the edge `e` are added. -/
structure Entered (w : Records) (e : ℕ) (p p' : Plan) : Prop where
  only : Only w e p p'
  adding : p'.Adding e
  nblock : p'.sched.nblock e = 0
  dirtyIn : p'.marks.dirtyIn e = false
  dirty : p'.marks.dirtyOut e = false → ∀ n ∈ p.graph.outs e, p'.marks.dirty n = false
  outs : p'.graph.outs e = p.graph.outs e
  phony : p'.graph.phony e = p.graph.phony e
  plain : p.graph.phony e = true → p'.marks.dirtyOut e = false ∧ p'.graph.ins e = p.graph.ins e
  mtime : ∀ n ∈ p.graph.outs e, p'.marks.mtime n = time w p.marks n

/-- The edge is marked before the loop over its outputs. -/
theorem enter_eq (hw : w.Plain) (hg : p.graph.Wf) (he : e < p.graph.edges) : ∃ m q,
    Reset w (p.graph.outs e) { p.marks with
      work := update p.marks.work e true, cycle := update p.marks.cycle e true } m ∧
    Loaded e { p with marks := m } q ∧
    enter w e p = { q with sched := { q.sched with nblock := update q.sched.nblock e 0 } } :=
  ⟨_, _, reset_outs _ _, depsload_loaded hw hg he, rfl⟩

theorem Loaded.touched {m : Marks} {q : Plan} (hr : Reset w (p.graph.outs e) { p.marks with
      work := update p.marks.work e true, cycle := update p.marks.cycle e true } m)
    (h : Loaded e { p with marks := m } q) : Touched w e p
      { q with sched := { q.sched with nblock := update q.sched.nblock e 0 } } := by
  have htime : ∀ n, time w q.marks n = time w p.marks n := by
    intro n
    have hq : time w q.marks n = time w m n := by rw [time_eq, time_eq, h.mtime]
    rw [hq, hr.time, time_eq, time_eq]
  exact {
    wf := h.wf
    extend := h.extend
    ins := h.ins
    inorderidx := h.inorderidx
    work := fun k hk => by
      rw [h.work, hr.work]
      exact Function.update_of_ne hk ..
    cycle := fun k hk => by
      rw [h.cycle, hr.cycle]
      exact Function.update_of_ne hk ..
    dirtyIn := fun k _ => by rw [h.dirtyIn, hr.dirtyIn]
    dirtyOut := fun k hk => by rw [h.dirtyOut k hk, hr.dirtyOut]
    dirty := fun n hn => by rw [h.dirty n hn, hr.dirty, if_neg hn]
    time := htime
    known := fun n hn => by
      have hm : m.mtime n = time w p.marks n := by
        refine (hr.mtime n (.inr (hn.trans ?_))).trans ?_ <;> rw [time_eq, time_eq]
      rw [htime, h.mtime]
      exact hm
    logmtime := h.logmtime.trans hr.logmtime
    hash := h.hash.trans hr.hash
    nblock := fun k hk => (Function.update_of_ne hk ..).trans (by rw [h.sched])
    nprune := by rw [h.sched]
    lists := by
      rw [h.sched]
      exact ⟨rfl, rfl, rfl, rfl⟩
    ntotal := by rw [h.sched] }

theorem enter_entered (hw : w.Plain) (hp : Planning w p) (he : e < p.graph.edges)
    (hnew : p.marks.work e = false) : Entered w e p (enter w e p) := by
  obtain ⟨m, q, hr, hl, heq⟩ := enter_eq hw hp.wf he
  rw [heq]
  have hclean := Bool.or_eq_false_iff.mp (hp.clean e hnew)
  have hself : q.marks.work e = true := by
    rw [hl.work, hr.work]
    exact Function.update_self ..
  have hcycle : q.marks.cycle e = true := by
    rw [hl.cycle, hr.cycle]
    exact Function.update_self ..
  have hdirtyIn : q.marks.dirtyIn e = false := by
    rw [hl.dirtyIn, hr.dirtyIn]
    exact hclean.1
  have hplain : p.graph.phony e = true →
      q.marks.dirtyOut e = false ∧ q.graph.ins e = p.graph.ins e := by
    intro hphony
    obtain ⟨hout, hins⟩ := hl.plain hphony
    refine ⟨hout.trans ?_, hins⟩
    rw [hr.dirtyOut]
    exact hclean.2
  refine ⟨(hl.touched hr).only hp he ?_ ?_, ⟨hself, hcycle⟩, Function.update_self .., hdirtyIn, ?_,
    hl.extend.outs e he, hl.extend.phony e he, hplain, ?_⟩
  · intro n hn hgen
    obtain ⟨hout, hins⟩ := hplain (hn.phony e hgen)
    refine ⟨hins.trans (hn.ins e hgen), ?_, Function.update_self ..⟩
    exact Bool.or_eq_false_iff.mpr ⟨hdirtyIn, hout⟩
  · rintro ⟨-, hidle, -⟩
    cases hself.symm.trans hidle
  · intro hout n hn
    rw [hl.same hout, hr.dirty, if_pos hn]
  · intro n hn
    rw [hl.mtime, hr.mtime n (.inl hn), time_eq, time_eq]

end Bootsh.Samu.Build
