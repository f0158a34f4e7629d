import Bootsh.Samu.BuildCounts

/-!
Where the edges are between becoming ready and being done, and what the pools count.
-/
namespace Bootsh.Samu.Build

open Function (update)
open Fallible (each each_preserves bind_eq_ok map_eq_ok)

variable {g : Graph} {m : Marks} {s s' : Sched} {running : List ℕ}

/-! ### What `nodedone` does to the lists -/

/-- Only counters differ. -/
structure SameLists (s s' : Sched) : Prop where
  work : s'.work = s.work
  numjobs : s'.numjobs = s.numjobs
  poolwork : s'.poolwork = s.poolwork
  trace : s'.trace = s.trace

/-- What changes of counters, pruning and `queue` preserve, `nodedone` preserves. -/
structure Stable (g : Graph) (P : Sched → Prop) : Prop where
  counters : ∀ s s', SameLists s s' → P s → P s'
  prune : ∀ s e, P s → P (s.act (.prune e))
  queue : ∀ s e, P s → P (queue g e s)

variable {P : Sched → Prop}

theorem Stable.unblock (h : Stable g P) {e : ℕ} (hs : P s) (hrun : Build.unblock g e s = .ok s') :
    P s' := by
  obtain ⟨k, -, hk⟩ := bind_eq_ok.mp hrun
  cases hk
  have hcount := h.counters s { s with nblock := update s.nblock e k } ⟨rfl, rfl, rfl, rfl⟩ hs
  split
  · exact h.queue _ e hcount
  · exact hcount

theorem Stable.pruned (h : Stable g P) {done : ℕ → Bool → Sched → Except Halt Sched}
    (hdone : ∀ n prune s s', P s → done n prune s = .ok s' → P s') {e : ℕ} (hs : P s)
    (hrun : Build.pruned g m done e s = .ok s') : P s' := by
  obtain ⟨s₁, hs₁, hrun⟩ := bind_eq_ok.mp hrun
  have h₁ := each_preserves (fun n _ s s' => hdone n true s s') (h.prune s e hs) hs₁
  split at hrun
  · obtain ⟨k, -, hk⟩ := bind_eq_ok.mp hrun
    cases hk
    exact h.counters s₁ _ ⟨rfl, rfl, rfl, rfl⟩ h₁
  · cases hrun
    exact h₁

theorem Stable.visit (h : Stable g P) {done : ℕ → Bool → Sched → Except Halt Sched}
    (hdone : ∀ n prune s s', P s → done n prune s = .ok s' → P s') {prune : Bool} {e : ℕ}
    (hs : P s) (hrun : Build.visit g m done prune e s = .ok s') : P s' := by
  unfold Build.visit at hrun
  generalize (if prune then m.dirtyOut e else m.flagDirty e) = flag at hrun
  split_ifs at hrun
  · cases hrun
    exact hs
  · obtain ⟨k, -, hk⟩ := bind_eq_ok.mp hrun
    have hcount := h.counters s { s with nprune := update s.nprune e k } ⟨rfl, rfl, rfl, rfl⟩ hs
    dsimp only at hk
    split_ifs at hk
    · exact h.pruned hdone hcount hk
    · exact h.unblock hcount hk
  · exact h.unblock hs hrun

theorem Stable.nodedone (h : Stable g P) (fuel n : ℕ) (prune : Bool) (s s' : Sched) (hs : P s)
    (hrun : Build.nodedone g m fuel n prune s = .ok s') : P s' := by
  induction fuel generalizing n prune s s' with
  | zero => cases hrun
  | succ fuel ih => exact each_preserves (fun e _ s s' hs hrun => h.visit ih hs hrun) hs hrun

/-! ### Where the edges are -/

/-- The edges of the pool's list, for the pool of the edge `e`. -/
def Sched.pooled (g : Graph) (s : Sched) (e : ℕ) : List ℕ := (g.limit e).elim [] s.poolwork

/-- A ready edge is on the list `work` or that of its pool, or something has become of it; a job
that was started runs or has ended. -/
structure Located (g : Graph) (running : List ℕ) (s : Sched) : Prop where
  queued : ∀ e, s.trace.count (.queue e) = s.work.count e + (s.pooled g e).count e +
    s.trace.count (.start e) + s.trace.count (.nostart e) + s.trace.count (.skip e)
  started : ∀ e, s.trace.count (.start e) =
    running.count e + s.trace.count (.finish e) + s.trace.count (.fail e)
  limit : ∀ p, ∀ e ∈ s.poolwork p, g.limit e = some p

theorem pooled_none {e : ℕ} (h : g.limit e = none) : s.pooled g e = [] := by
  rw [Sched.pooled, h]
  rfl

theorem pooled_some {e p : ℕ} (h : g.limit e = some p) : s.pooled g e = s.poolwork p := by
  rw [Sched.pooled, h]
  rfl

theorem queue_free {e : ℕ} (h : g.limit e = none) :
    queue g e s = { s.act (.queue e) with work := e :: s.work } := by
  unfold queue
  rw [h]
  rfl

theorem queue_full {e p : ℕ} (h : g.limit e = some p) (hfull : s.numjobs p = g.maxjobs p) :
    queue g e s = { s.act (.queue e) with poolwork := update s.poolwork p (e :: s.poolwork p) } := by
  unfold queue
  rw [h]
  exact if_pos hfull

theorem queue_room {e p : ℕ} (h : g.limit e = some p) (hroom : s.numjobs p ≠ g.maxjobs p) :
    queue g e s = { s.act (.queue e) with
      numjobs := update s.numjobs p (s.numjobs p + 1), work := e :: s.work } := by
  unfold queue
  rw [h]
  exact if_neg hroom

/-- How often an edge occurs in the lists of ready edges. -/
theorem queue_count (e e' : ℕ) : (queue g e s).work.count e' + ((queue g e s).pooled g e').count e' =
    s.work.count e' + (s.pooled g e').count e' + [e].count e' := by
  have hcons : (e :: s.work).count e' = s.work.count e' + [e].count e' := by
    rw [List.count_cons, List.count_singleton]
  cases hl : g.limit e with
  | none =>
    rw [queue_free hl]
    change (e :: s.work).count e' + (s.pooled g e').count e' = _
    omega
  | some p =>
    by_cases hfull : s.numjobs p = g.maxjobs p
    case neg =>
      rw [queue_room hl hfull]
      change (e :: s.work).count e' + (s.pooled g e').count e' = _
      omega
    case pos =>
      rw [queue_full hl hfull, Nat.add_assoc]
      refine congrArg (s.work.count e' + ·) ?_
      by_cases hp : g.limit e' = some p
      · rw [pooled_some hp, pooled_some hp]
        change (update s.poolwork p (e :: s.poolwork p) p).count e' = _
        rw [Function.update_self, List.count_cons, List.count_singleton]
      · have hne : e ≠ e' := by
          rintro rfl
          exact hp hl
        rw [List.count_singleton, if_neg (by simpa using hne), Nat.add_zero]
        cases hl' : g.limit e' with
        | none => rw [pooled_none hl', pooled_none hl']
        | some p' =>
          have hne' : p' ≠ p := by
            rintro rfl
            exact hp hl'
          rw [pooled_some hl', pooled_some hl']
          change (update s.poolwork p (e :: s.poolwork p) p').count e' = _
          rw [Function.update_of_ne hne']

theorem limit_queue {e : ℕ} (h : ∀ p, ∀ e ∈ s.poolwork p, g.limit e = some p) :
    ∀ p, ∀ e' ∈ (queue g e s).poolwork p, g.limit e' = some p := by
  intro p e' he'
  cases hl : g.limit e with
  | none =>
    rw [queue_free hl] at he'
    exact h p e' he'
  | some p' =>
    by_cases hfull : s.numjobs p' = g.maxjobs p'
    case neg =>
      rw [queue_room hl hfull] at he'
      exact h p e' he'
    case pos =>
      rw [queue_full hl hfull] at he'
      by_cases hp : p = p'
      · subst hp
        simp only [Function.update_self, List.mem_cons] at he'
        rcases he' with rfl | he'
        · exact hl
        · exact h p e' he'
      · simp only [Function.update_of_ne hp] at he'
        exact h p e' he'

theorem Located.stable : Stable g (Located g running) := by
  refine ⟨?_, ?_, ?_⟩
  case refine_1 =>
    intro s s' hsame h
    have hpool : ∀ e, s'.pooled g e = s.pooled g e := by
      intro e
      rw [Sched.pooled, hsame.poolwork]
      rfl
    refine ⟨?_, ?_, ?_⟩
    · intro e
      rw [hsame.trace, hsame.work, hpool]
      exact h.queued e
    · intro e
      rw [hsame.trace]
      exact h.started e
    · rw [hsame.poolwork]
      exact h.limit
  case refine_2 =>
    intro s e h
    refine ⟨?_, ?_, h.limit⟩
    · intro e'
      simpa [Sched.act, Sched.pooled] using h.queued e'
    · intro e'
      simpa [Sched.act] using h.started e'
  case refine_3 =>
    intro s e h
    refine ⟨?_, ?_, limit_queue h.limit⟩
    · intro e'
      have hq := h.queued e'
      have hcount := queue_count (g := g) (s := s) e e'
      have htrace : (queue g e s).trace.count (.queue e') =
          s.trace.count (.queue e') + [e].count e' := by
        rw [queue_trace, List.count_cons, List.count_singleton]
        simp
      rw [htrace, queue_trace]
      simp only [List.count_cons_of_ne, ne_eq, reduceCtorEq, not_false_eq_true]
      omega
    · intro e'
      rw [queue_trace]
      simpa using h.started e'

/-! ### The pools -/

/-- The edge belongs to the pool. -/
def Graph.inPool (g : Graph) (p e : ℕ) : Bool := g.limit e = some p

/-- An edge of the pool has left the list `work` and did not start a job. -/
def Graph.lost (g : Graph) (p : ℕ) : Action → Bool
  | .nostart e => g.inPool p e
  | .skip e => g.inPool p e
  | _ => false

/-- The edges that a pool counts: on the list `work`, running, or gone without a job. Others wait
only when the pool is full. -/
structure Pooled (g : Graph) (running : List ℕ) (s : Sched) : Prop where
  balance : ∀ p, s.numjobs p = (s.work.countP (g.inPool p) + running.countP (g.inPool p) +
    s.trace.countP (g.lost p) : ℕ)
  full : ∀ p, s.poolwork p ≠ [] → s.numjobs p = g.maxjobs p
  le : ∀ p, 0 ≤ g.maxjobs p → s.numjobs p ≤ g.maxjobs p

theorem Pooled.same {s' : Sched} (h : Pooled g running s) (hsame : SameLists s s') :
    Pooled g running s' := by
  refine ⟨?_, ?_, ?_⟩
  · rw [hsame.numjobs, hsame.work, hsame.trace]
    exact h.balance
  · rw [hsame.numjobs, hsame.poolwork]
    exact h.full
  · rw [hsame.numjobs]
    exact h.le

theorem Pooled.queue (h : Pooled g running s) (e : ℕ) : Pooled g running (Build.queue g e s) := by
  cases hl : g.limit e with
  | none =>
    rw [queue_free hl]
    refine ⟨?_, h.full, h.le⟩
    intro p
    simpa [Sched.act, Graph.lost, Graph.inPool, hl] using h.balance p
  | some p' =>
    by_cases hfull : s.numjobs p' = g.maxjobs p'
    case pos =>
      rw [queue_full hl hfull]
      refine ⟨?_, ?_, h.le⟩
      · intro p
        simpa [Sched.act, Graph.lost] using h.balance p
      · intro p hp
        by_cases hpp : p = p'
        · exact hpp ▸ hfull
        · simp only [Function.update_of_ne hpp] at hp
          exact h.full p hp
    case neg =>
      rw [queue_room hl hfull]
      refine ⟨?_, ?_, ?_⟩
      · intro p
        have hb := h.balance p
        by_cases hpp : p = p'
        · subst hpp
          simp [Sched.act, Graph.lost, Graph.inPool, hl] at hb ⊢
          omega
        · simp [Sched.act, Graph.lost, Graph.inPool, hl, Ne.symm hpp, hpp] at hb ⊢
          omega
      · intro p hp
        by_cases hpp : p = p'
        · exact absurd (h.full p' (hpp ▸ hp)) hfull
        · simp only [Function.update_of_ne hpp]
          exact h.full p hp
      · intro p hmax
        by_cases hpp : p = p'
        · subst hpp
          have := h.le p hmax
          simp
          omega
        · simp only [Function.update_of_ne hpp]
          exact h.le p hmax

theorem Pooled.stable : Stable g (Pooled g running) := by
  refine ⟨fun s s' hsame h => h.same hsame, ?_, fun s e h => h.queue e⟩
  intro s e h
  refine ⟨?_, h.full, h.le⟩
  intro p
  simpa [Sched.act, Graph.lost] using h.balance p

/-! ### Where an edge is -/

theorem Located.not_resolved {e : ℕ} (h : Located g running s) (hc : Counted g m [] [] 0 s)
    (he : e ∈ s.work ∨ e ∈ running) : .queue e ∈ s.trace ∧ ¬Resolved s.trace e := by
  have hq := h.queued e
  have hs := h.started e
  have honce := hc.once e
  have hcount : 1 ≤ s.work.count e ∨ 1 ≤ running.count e := by
    rcases he with he | he
    · exact .inl (List.count_pos_iff.mpr he)
    · exact .inr (List.count_pos_iff.mpr he)
  refine ⟨List.count_pos_iff.mp (by omega), ?_⟩
  rintro (hr | hr | hr)
  · have := List.count_pos_iff.mpr hr
    omega
  · have := List.count_pos_iff.mpr hr
    omega
  · have := List.count_pos_iff.mpr hr
    omega

/-- The first edge of the list `work` is passed over, or its job does not start. -/
theorem Located.leave {e : ℕ} {rest : List ℕ} {a : Action} (h : Located g running s)
    (hwork : s.work = e :: rest) (ha : a = .nostart e ∨ a = .skip e) :
    Located g running (Sched.act a { s with work := rest }) := by
  refine ⟨?_, ?_, h.limit⟩
  · intro e'
    have hq := h.queued e'
    rw [hwork, List.count_cons] at hq
    change _ = rest.count e' + (s.pooled g e').count e' + _ + _ + _
    rcases ha with rfl | rfl <;> simp [Sched.act, List.count_cons] at hq ⊢ <;> omega
  · intro e'
    rcases ha with rfl | rfl <;> simpa [Sched.act] using h.started e'

/-- Its job starts. -/
theorem Located.start {e : ℕ} {rest : List ℕ} (h : Located g running s)
    (hwork : s.work = e :: rest) :
    Located g (e :: running) (Sched.act (.start e) { s with work := rest }) := by
  refine ⟨?_, ?_, h.limit⟩
  · intro e'
    have hq := h.queued e'
    rw [hwork, List.count_cons] at hq
    change _ = rest.count e' + (s.pooled g e').count e' + _ + _ + _
    simp [Sched.act, List.count_cons] at hq ⊢
    omega
  · intro e'
    have hs := h.started e'
    simp [Sched.act, List.count_cons] at hs ⊢
    omega

theorem limit_eq {e : ℕ} (hphony : g.phony e = false) : g.limit e = g.pool e := by
  rw [Graph.limit, hphony]
  rfl

theorem release_free {e : ℕ} (hp : g.pool e = none) : release g e s = s := by
  rw [release, hp]

theorem release_next {e p e' : ℕ} {rest : List ℕ} (hp : g.pool e = some p)
    (hq : s.poolwork p = e' :: rest) :
    release g e s = { s with poolwork := update s.poolwork p rest, work := e' :: s.work } := by
  rw [release, hp]
  dsimp only
  rw [hq]

theorem release_last {e p : ℕ} (hp : g.pool e = some p) (hq : s.poolwork p = []) :
    release g e s = { s with numjobs := update s.numjobs p (s.numjobs p - 1) } := by
  rw [release, hp]
  dsimp only
  rw [hq]

theorem release_trace {e : ℕ} : (release g e s).trace = s.trace := by
  unfold release
  split
  · rfl
  · split <;> rfl

theorem release_counters {e : ℕ} : (release g e s).nblock = s.nblock ∧
    (release g e s).nprune = s.nprune ∧ (release g e s).ntotal = s.ntotal := by
  unfold release
  split
  · exact ⟨rfl, rfl, rfl⟩
  · split <;> exact ⟨rfl, rfl, rfl⟩

/-- The edges only move between the lists of ready edges. -/
theorem release_count (h : ∀ p, ∀ e ∈ s.poolwork p, g.limit e = some p) (e e' : ℕ) :
    (release g e s).work.count e' + ((release g e s).pooled g e').count e' =
      s.work.count e' + (s.pooled g e').count e' := by
  cases hp : g.pool e with
  | none => rw [release_free hp]
  | some p =>
    cases hq : s.poolwork p with
    | nil =>
      rw [release_last hp hq]
      rfl
    | cons k rest =>
      rw [release_next hp hq]
      have hk : g.limit k = some p := h p k (hq ▸ List.mem_cons_self)
      change (k :: s.work).count e' + _ = _
      by_cases hl : g.limit e' = some p
      · rw [pooled_some hl, pooled_some hl, hq]
        change _ + (update s.poolwork p rest p).count e' = _
        rw [Function.update_self, List.count_cons, List.count_cons]
        omega
      · have hne : k ≠ e' := by
          rintro rfl
          exact hl hk
        rw [List.count_cons_of_ne hne]
        cases hl' : g.limit e' with
        | none => rw [pooled_none hl', pooled_none hl']
        | some p' =>
          have hne' : p' ≠ p := by
            rintro rfl
            exact hl hl'
          rw [pooled_some hl', pooled_some hl']
          change _ + (update s.poolwork p rest p').count e' = _
          rw [Function.update_of_ne hne']

theorem release_limit {e : ℕ} (h : ∀ p, ∀ e ∈ s.poolwork p, g.limit e = some p) :
    ∀ p, ∀ e' ∈ (release g e s).poolwork p, g.limit e' = some p := by
  intro p e' he'
  cases hp : g.pool e with
  | none =>
    rw [release_free hp] at he'
    exact h p e' he'
  | some p' =>
    cases hq : s.poolwork p' with
    | nil =>
      rw [release_last hp hq] at he'
      exact h p e' he'
    | cons k rest =>
      rw [release_next hp hq] at he'
      by_cases hpp : p = p'
      · subst hpp
        simp only [Function.update_self] at he'
        exact h p e' (hq ▸ List.mem_cons_of_mem _ he')
      · simp only [Function.update_of_ne hpp] at he'
        exact h p e' he'

/-- The job of an edge ends, and the next edge of its pool becomes ready. -/
theorem Located.done {e : ℕ} {a : Action} (h : Located g running s)
    (ha : a = .finish e ∨ a = .fail e) (he : e ∈ running) :
    Located g (running.erase e) ((release g e s).act a) := by
  have hpos := List.count_pos_iff.mpr he
  refine ⟨?_, ?_, release_limit h.limit⟩
  · intro e'
    have hq := h.queued e'
    have hcount := release_count h.limit e e'
    change List.count _ (a :: (release g e s).trace) = (release g e s).work.count e' +
      ((release g e s).pooled g e').count e' + _ + _ + _
    rw [release_trace]
    rcases ha with rfl | rfl <;> simp [Sched.act, release_trace] <;> omega
  · intro e'
    have hs := h.started e'
    by_cases hne : e = e'
    · subst hne
      rw [List.count_erase_self]
      rcases ha with rfl | rfl <;> simp [Sched.act, release_trace] <;> omega
    · rw [List.count_erase_of_ne (Ne.symm hne)]
      rcases ha with rfl | rfl <;> simp [Sched.act, release_trace, hne] <;> omega

/-! ### What the pools count -/

theorem Pooled.leave {e : ℕ} {rest : List ℕ} {a : Action} (h : Pooled g running s)
    (hwork : s.work = e :: rest) (ha : a = .nostart e ∨ a = .skip e) :
    Pooled g running (Sched.act a { s with work := rest }) := by
  refine ⟨?_, h.full, h.le⟩
  intro p
  have hb := h.balance p
  rw [hwork, List.countP_cons] at hb
  change s.numjobs p = ((rest.countP (g.inPool p) + _ + (a :: s.trace).countP (g.lost p) : ℕ) : ℤ)
  rw [List.countP_cons, hb]
  cases hin : g.inPool p e <;> rcases ha with rfl | rfl <;> simp [Graph.lost, hin] <;> omega

theorem Pooled.start {e : ℕ} {rest : List ℕ} (h : Pooled g running s)
    (hwork : s.work = e :: rest) :
    Pooled g (e :: running) (Sched.act (.start e) { s with work := rest }) := by
  refine ⟨?_, h.full, h.le⟩
  intro p
  have hb := h.balance p
  rw [hwork, List.countP_cons] at hb
  change s.numjobs p = ((rest.countP (g.inPool p) + (e :: running).countP (g.inPool p) +
    (.start e :: s.trace).countP (g.lost p) : ℕ) : ℤ)
  rw [List.countP_cons, List.countP_cons, hb]
  simp only [Graph.lost, Bool.false_eq_true, if_false]
  omega

theorem countP_erase {p : ℕ → Bool} {e : ℕ} (he : e ∈ running) :
    running.countP p = (running.erase e).countP p + if p e then 1 else 0 := by
  rw [(List.perm_cons_erase he).countP_eq, List.countP_cons]

theorem lost_done {e : ℕ} {a : Action} (ha : a = .finish e ∨ a = .fail e) (t : List Action) (p : ℕ) :
    (a :: t).countP (g.lost p) = t.countP (g.lost p) := by
  rcases ha with rfl | rfl <;> simp [Graph.lost]

theorem inPool_eq {e : ℕ} (hphony : g.phony e = false) (p : ℕ) :
    g.inPool p e = decide (g.pool e = some p) := by
  rw [Graph.inPool, limit_eq hphony]

section

variable {e p' : ℕ} {a : Action}

theorem Pooled.done_free (h : Pooled g running s) (ha : a = .finish e ∨ a = .fail e)
    (he : e ∈ running) (hphony : g.phony e = false) (hp : g.pool e = none) :
    Pooled g (running.erase e) ((release g e s).act a) := by
  rw [release_free hp]
  refine ⟨?_, h.full, h.le⟩
  intro p
  have hb := h.balance p
  have hnot : g.inPool p e = false := by simp [inPool_eq hphony, hp]
  rw [countP_erase he, hnot] at hb
  change s.numjobs p = ((s.work.countP (g.inPool p) + (running.erase e).countP (g.inPool p) +
    (a :: s.trace).countP (g.lost p) : ℕ) : ℤ)
  rw [lost_done ha]
  exact hb

/-- No edge waits in the pool: the place is given back. -/
theorem Pooled.done_last (h : Pooled g running s) (ha : a = .finish e ∨ a = .fail e)
    (he : e ∈ running) (hphony : g.phony e = false) (hp : g.pool e = some p')
    (hq : s.poolwork p' = []) : Pooled g (running.erase e) ((release g e s).act a) := by
  rw [release_last hp hq]
  refine ⟨?_, ?_, ?_⟩
  · intro p
    have hb := h.balance p
    rw [countP_erase he, inPool_eq hphony, hp] at hb
    change update s.numjobs p' (s.numjobs p' - 1) p = ((s.work.countP (g.inPool p) +
      (running.erase e).countP (g.inPool p) + (a :: s.trace).countP (g.lost p) : ℕ) : ℤ)
    rw [lost_done ha]
    by_cases hpp : p = p'
    · subst hpp
      rw [decide_eq_true rfl, if_pos rfl] at hb
      rw [Function.update_self, hb]
      push_cast
      omega
    · rw [decide_eq_false fun heq => hpp (Option.some.inj heq).symm] at hb
      rw [Function.update_of_ne hpp]
      exact hb
  · intro p hne
    have hpp : p ≠ p' := by
      rintro rfl
      exact hne hq
    change update s.numjobs p' (s.numjobs p' - 1) p = _
    rw [Function.update_of_ne hpp]
    exact h.full p hne
  · intro p hmax
    have hle := h.le p hmax
    change update s.numjobs p' (s.numjobs p' - 1) p ≤ _
    by_cases hpp : p = p'
    · subst hpp
      rw [Function.update_self]
      omega
    · rwa [Function.update_of_ne hpp]

/-- The next edge that waits in the pool takes the place. -/
theorem Pooled.done_next {k : ℕ} {rest : List ℕ} (h : Pooled g running s)
    (hl : Located g running s) (ha : a = .finish e ∨ a = .fail e) (he : e ∈ running)
    (hphony : g.phony e = false) (hp : g.pool e = some p') (hq : s.poolwork p' = k :: rest) :
    Pooled g (running.erase e) ((release g e s).act a) := by
  have hk : g.limit k = some p' := hl.limit p' k (hq ▸ List.mem_cons_self)
  rw [release_next hp hq]
  refine ⟨?_, ?_, h.le⟩
  · intro p
    have hb := h.balance p
    have hsame : g.inPool p k = g.inPool p e := by
      rw [inPool_eq hphony, Graph.inPool, hk, hp]
    rw [countP_erase he] at hb
    change s.numjobs p = (((k :: s.work).countP (g.inPool p) +
      (running.erase e).countP (g.inPool p) + (a :: s.trace).countP (g.lost p) : ℕ) : ℤ)
    rw [lost_done ha, List.countP_cons, hsame]
    omega
  · intro p hne
    by_cases hpp : p = p'
    · subst hpp
      exact h.full p (by rw [hq]; simp)
    · refine h.full p ?_
      change update s.poolwork p' rest p ≠ [] at hne
      rwa [Function.update_of_ne hpp] at hne

theorem Pooled.done (h : Pooled g running s) (hl : Located g running s)
    (ha : a = .finish e ∨ a = .fail e) (he : e ∈ running) (hphony : g.phony e = false) :
    Pooled g (running.erase e) ((release g e s).act a) := by
  cases hp : g.pool e with
  | none => exact h.done_free ha he hphony hp
  | some p' =>
    cases hq : s.poolwork p' with
    | nil => exact h.done_last ha he hphony hp hq
    | cons k rest => exact h.done_next hl ha he hphony hp hq

end

end Bootsh.Samu.Build
