import Bootsh.Samu.BuildInputs

/-!
`buildadd`: every edge that it goes through is counted right, and it ends.
-/
namespace Bootsh.Samu.Build

open Function (update)
open Fallible (each bind_eq_ok Gives)

variable {w : Records} {p p' q q' : Plan} {e n : ℕ} {l : List ℕ} {newest : Option ℕ}

/-! ### The outputs -/

theorem checkouts_cases (w : Records) (e : ℕ) (newest : Option ℕ) (outs : List ℕ) (q : Plan) :
    checkouts w e newest outs q = q ∨
    ∃ n ∈ outs, isdirty w q e n newest = true ∧ checkouts w e newest outs q = { q with marks :=
      { q.marks with
        dirty := update q.marks.dirty n true
        dirtyOut := update q.marks.dirtyOut e true } } := by
  induction outs with
  | nil => exact .inl rfl
  | cons n outs ih =>
    rw [checkouts]
    split
    case isTrue => exact .inl rfl
    case isFalse =>
      split
      case isTrue hdirty => exact .inr ⟨n, List.mem_cons_self, hdirty, rfl⟩
      case isFalse =>
        rcases ih with ih | ⟨n', hn', hdirty, ih⟩
        · exact .inl ih
        · exact .inr ⟨n', List.mem_cons_of_mem _ hn', hdirty, ih⟩

theorem Looping.checkouts (h : Looping w e (q.graph.ins e) p q) :
    Looping w e ((checkouts w e newest (q.graph.outs e) q).graph.ins e) p
      (checkouts w e newest (q.graph.outs e) q) := by
  rcases checkouts_cases w e newest (q.graph.outs e) q with
    heq | ⟨n, hn, hdirty, heq⟩
  · rw [heq]
    exact h
  · rw [heq]
    refine h.near ⟨rfl, rfl, rfl, rfl, rfl, rfl, fun _ _ => rfl, ?_, ?_, fun _ _ => rfl, rfl,
      ⟨rfl, rfl, rfl, rfl⟩, rfl⟩ ?_ h.nblock h.settled ?_
    · exact fun k hk => Function.update_of_ne hk ..
    · intro k hk
      refine Function.update_of_ne ?_ ..
      rintro rfl
      exact hk hn
    · intro k hk hgen
      -- such an edge makes only this node, which exists
      have hkn : n = k := by
        rw [hk.outs e hgen] at hn
        exact List.mem_singleton.mp hn
      subst hkn
      have hmissing : q.marks.mtime n = mtimeMissing := by
        simpa [isdirty, hk.phony e hgen, hk.ins e hgen] using hdirty
      rw [h.known n hn] at hmissing
      exact absurd hmissing hk.exists_
    · intro hout
      dsimp only at hout
      rw [Function.update_self] at hout
      cases hout

theorem isdirty_false {n : ℕ} (hph : q.graph.phony e = false)
    (h : isdirty w q e n newest = false) : q.marks.mtime n ≠ mtimeMissing ∧
      (∀ j, newest = some j → q.marks.mtime j ≤ q.marks.mtime n ∨ q.graph.restat e = true) ∧
      (∀ j, newest = some j → q.marks.logmtime n ≠ mtimeMissing →
        q.marks.mtime j ≤ q.marks.logmtime n) ∧
      (q.graph.generator e = false → q.marks.logmtime n ≠ mtimeMissing ∧
        w.edgehash e = q.marks.hash n) := by
  unfold isdirty at h
  dsimp only at h
  rw [hph, if_neg (by simp)] at h
  split_ifs at h with hmissing hnewer hlog hlater hgenerator
  all_goals
    refine ⟨hmissing, ?_, ?_, ?_⟩
    · rintro j rfl
      by_contra hno
      rw [not_or, not_le, Bool.not_eq_true] at hno
      exact hnewer (by simp [isnewer, hno.1, hno.2])
    · rintro j rfl hlogged
      by_contra hno
      rw [not_le] at hno
      exact hlater (by simp [hlogged, hno])
  · exact fun hg => absurd hgenerator (by simp [hg])
  · intro hg
    refine ⟨fun hlogged => hlog (by simp [hlogged, hg]), ?_⟩
    by_contra hno
    simp [hno] at h

theorem checkouts_clean (outs : List ℕ) (q : Plan)
    (h : (checkouts w e newest outs q).marks.dirtyOut e = false) :
    checkouts w e newest outs q = q ∧ ∀ n ∈ outs, isdirty w q e n newest = false := by
  induction outs with
  | nil => exact ⟨rfl, by simp⟩
  | cons n outs ih =>
    rw [checkouts] at h ⊢
    split_ifs at h ⊢ with hout hdirty
    · cases hout.symm.trans h
    · dsimp only at h
      rw [Function.update_self] at h
      cases h
    · obtain ⟨heq, hrest⟩ := ih h
      exact ⟨heq, List.forall_mem_cons.mpr ⟨Bool.eq_false_iff.mpr hdirty, hrest⟩⟩

/-- An edge that is not dirty is up to date. -/
theorem Scanned.uptodate (hs : Scanned w e (q.graph.ins e) q newest) (h : Looping w e l p q)
    (hph : q.graph.phony e = false) (hd : q.marks.flagDirty e = false)
    (hclean : ∀ n ∈ q.graph.outs e, isdirty w q e n newest = false) : UpToDate w q e := by
  have hspec := fun n hn => isdirty_false hph (hclean n hn)
  refine ⟨hs.clean (Bool.or_eq_false_iff.mp hd).1, ?_, ?_, ?_⟩
  case refine_1 =>
    intro n hn
    rw [← h.known n hn]
    exact (hspec n hn).1
  case refine_2 =>
    intro n hn k hk hexists
    obtain ⟨j, hj, hle⟩ := hs.upto k hk hexists
    obtain ⟨-, hnew, hlog, -⟩ := hspec n hn
    have hj₂ := hs.known j hj
    refine ⟨(hnew j hj).imp_left ?_, ?_⟩
    · rw [hj₂, h.known n hn]
      exact hle.trans
    · intro hlogged
      exact hle.trans (hj₂ ▸ hlog j hj hlogged)
  case refine_3 => exact fun hg n hn => (hspec n hn).2.2.2 hg

/-! ### The end of an edge -/

/-- What the end of `buildadd` does to the counters and lists. -/
structure Settles (e : ℕ) (p p' : Plan) : Prop where
  nblock : p'.sched.nblock = p.sched.nblock
  nprune : ∀ k, k ≠ e → p'.sched.nprune k = p.sched.nprune k
  prunable : p.marks.dirtyOut e = false → p'.sched.nprune e = p.sched.nblock e
  trace : p'.sched.trace = if p.marks.flagDirty e && p.sched.nblock e = 0 then
    .queue e :: p.sched.trace else p.sched.trace
  ntotal : p'.sched.ntotal = p.sched.ntotal +
    if p.marks.flagDirty e && !p.graph.phony e then 1 else 0
  lists : ∀ P, Stable p.graph P → P p.sched → P p'.sched

theorem settle_settles (e : ℕ) (p : Plan) : Settles e p (settle e p) := by
  unfold settle
  set s₁ : Sched := if p.marks.dirtyOut e then p.sched else
    { p.sched with nprune := update p.sched.nprune e (p.sched.nblock e) } with hs₁
  have hblock : s₁.nblock = p.sched.nblock := by
    rw [hs₁]
    split <;> rfl
  have hsame : SameLists p.sched s₁ ∧ s₁.ntotal = p.sched.ntotal := by
    rw [hs₁]
    split <;> exact ⟨⟨rfl, rfl, rfl, rfl⟩, rfl⟩
  have hother : ∀ k, k ≠ e → s₁.nprune k = p.sched.nprune k := by
    intro k hk
    rw [hs₁]
    split
    · rfl
    · exact Function.update_of_ne hk ..
  have hprune : p.marks.dirtyOut e = false → s₁.nprune e = p.sched.nblock e := by
    intro hout
    rw [hs₁, if_neg (by simp [hout])]
    exact Function.update_self ..
  dsimp only
  rw [← hs₁, hblock]
  set s₂ : Sched := if (p.marks.flagDirty e && decide (p.sched.nblock e = 0)) = true then
    queue p.graph e s₁ else s₁ with hs₂
  have h₂ : s₂.nblock = s₁.nblock ∧ s₂.nprune = s₁.nprune ∧ s₂.ntotal = s₁.ntotal := by
    rw [hs₂]
    split <;> simp
  have htrace : s₂.trace = if (p.marks.flagDirty e && decide (p.sched.nblock e = 0)) = true then
      .queue e :: p.sched.trace else p.sched.trace := by
    rw [hs₂]
    split <;> simp [hsame.1.trace]
  have hlists : ∀ P, Stable p.graph P → P p.sched → P s₂ := by
    intro P hP h
    have h₁ := hP.counters _ _ hsame.1 h
    rw [hs₂]
    split
    · exact hP.queue _ e h₁
    · exact h₁
  set s₃ : Sched := if (p.marks.flagDirty e && !p.graph.phony e) = true then
    { s₂ with ntotal := s₂.ntotal + 1 } else s₂ with hs₃
  have h₃ : s₃.nblock = s₂.nblock ∧ s₃.nprune = s₂.nprune ∧ SameLists s₂ s₃ := by
    rw [hs₃]
    split <;> exact ⟨rfl, rfl, rfl, rfl, rfl, rfl⟩
  refine ⟨h₃.1.trans (h₂.1.trans hblock), ?_, ?_, h₃.2.2.trace.trans htrace, ?_, ?_⟩
  case refine_1 =>
    exact fun k hk => (congrFun (h₃.2.1.trans h₂.2.1) k).trans (hother k hk)
  case refine_2 => exact fun hout => (congrFun (h₃.2.1.trans h₂.2.1) e).trans (hprune hout)
  case refine_3 =>
    have htotal := h₂.2.2.trans hsame.2
    change s₃.ntotal = _
    rw [hs₃]
    split
    case isTrue => exact congrArg (· + 1) htotal
    case isFalse => exact htotal
  case refine_4 => exact fun P hP h => hP.counters s₂ s₃ h₃.2.2 (hlists P hP h)

theorem Looping.settle_keeps (h : Looping w e l p q) : Keeps w (· ≠ e) q (settle e q) := by
  have hs := settle_settles e q
  have htime : ∀ n, time w (settle e q).marks n = time w q.marks n := by
    intro n
    rw [time_eq, time_eq]
    rfl
  refine ⟨?_, fun _ _ hn => hn, ?_, htime, fun n hn => hn.trans (htime n).symm, rfl, rfl⟩
  case refine_1 =>
    intro k _ hk
    refine ⟨rfl, Function.update_of_ne hk .., rfl, rfl, congrFun hs.nblock k, hs.nprune k hk, rfl,
      rfl, rfl, rfl, rfl, rfl, ?_, ?_⟩
    · intro n hn
      have hnot : n ∉ q.graph.outs e :=
        fun hn' => hk (h.planning.wf.eq_of_mem_outs hn' hn)
      unfold settle
      dsimp only
      split
      · simp [hnot]
      · rfl
    · rw [hs.trace]
      split
      · simp [Ne.symm hk]
      · rfl
  case refine_2 =>
    intro n hn
    refine ⟨?_, hn.phony, hn.ins, hn.outs, hn.clean, ?_⟩
    · exact fun hmissing => hn.exists_ ((htime n).symm.trans hmissing)
    · rw [hs.nblock]
      exact hn.free

theorem settle_done {k : ℕ} (hk : k ≠ e) : (settle e q).Done k ↔ q.Done k := by
  have hcycle : (settle e q).marks.cycle k = q.marks.cycle k := Function.update_of_ne hk ..
  rw [Plan.Done, Plan.Done, hcycle]
  rfl

theorem Looping.settle_acyclic (h : Looping w e (q.graph.ins e) p q) :
    Acc (Before (settle e q).graph) e := by
  refine Acc.intro e ?_
  rintro k ⟨n, hn, hgen⟩
  change n ∈ q.graph.ins e at hn
  change q.graph.gen n = some k at hgen
  rcases h.settled n hn with hq | ⟨k', hgen', hd⟩
  · refine Acc.intro k ?_
    rintro k' ⟨n', hn', -⟩
    change n' ∈ q.graph.ins k at hn'
    rw [hq.ins k hgen] at hn'
    cases hn'
  · rw [hgen] at hgen'
    cases hgen'
    exact (h.settle_keeps.ok (fun k hk => h.ne hk) h.planning.ok hd).acyclic

theorem Looping.settle_edge (h : Looping w e (q.graph.ins e) p q)
    (hup : q.graph.phony e = false → q.marks.flagDirty e = false → UpToDate w q e) :
    EdgeOk w (settle e q) e := by
  have hs := settle_settles e q
  have hkeeps := h.settle_keeps
  have hne : ∀ k, q.Done k → k ≠ e := fun k hk => h.ne hk
  refine ⟨?_, fun n hn => hkeeps.settled hne (h.settled n hn), ?_, ?_, ?_, h.settle_acyclic,
    fun n hn => hkeeps.known n (h.known n hn), ?_⟩
  case refine_1 =>
    intro n hn
    have hn' : n ∈ q.graph.outs e := hn
    change (settle e q).marks.dirty n = q.marks.flagDirty e
    unfold settle
    dsimp only
    split
    case isTrue hd => simp [hn', hd]
    case isFalse hd =>
      rw [Bool.not_eq_true] at hd
      rw [hd]
      exact h.dirty (Bool.or_eq_false_iff.mp hd).2 n hn'
  case refine_2 =>
    rw [hs.nblock, h.nblock]
    exact List.countP_congr fun n hn => by rw [hkeeps.blocking hne (h.settled n hn)]
  case refine_3 =>
    intro hout
    rw [hs.prunable hout, hs.nblock]
  case refine_4 =>
    have hnot : .queue e ∉ q.sched.trace := fun hq => h.notDone (h.planning.queued e hq)
    change _ ↔ q.marks.flagDirty e = true ∧ (settle e q).sched.nblock e = 0
    rw [hs.nblock, hs.trace]
    split
    case isTrue hd => simpa using hd
    case isFalse hd => simpa [hnot] using hd
  case refine_5 =>
    intro hph hd
    have hu := hup hph hd
    refine ⟨?_, ?_, ?_, hu.logged⟩
    · exact fun k hk => hkeeps.clean hne (h.settled k (List.mem_of_mem_take hk)) (hu.clean k hk)
    · simp only [hkeeps.time]
      exact hu.exists_
    · simp only [hkeeps.time]
      exact hu.newer

theorem Looping.settle_self (h : Looping w e l p q) : (settle e q).Done e :=
  ⟨h.adding.1, Function.update_self ..⟩

/-- The edge is queued for the first time. -/
theorem Looping.settle_once (h : Looping w e l p q) (k : ℕ) :
    (settle e q).sched.trace.count (.queue k) ≤ 1 := by
  have hnot : q.sched.trace.count (.queue e) = 0 := by
    rw [List.count_eq_zero]
    exact fun hq => h.notDone (h.planning.queued e hq)
  have hle := h.planning.once k
  rw [(settle_settles e q).trace]
  split
  · rw [List.count_cons]
    by_cases hke : e = k
    · subst hke
      rw [hnot]
      simp
    · simpa [hke] using hle
  · exact hle

/-- `ntotal` counts the edge, if it is dirty and not of `phony`. -/
theorem Looping.settle_total (h : Looping w e l p q) : ∃ l : Finset ℕ,
    (settle e q).sched.ntotal = l.card ∧ ∀ k, k ∈ l ↔ (settle e q).Done k ∧
      q.marks.flagDirty k = true ∧ q.graph.phony k = false := by
  obtain ⟨l, hl, hmem⟩ := h.planning.total
  have hfresh : e ∉ l := fun hin => h.notDone ((hmem e).mp hin).1
  have hiff : ∀ k, k ≠ e → ((settle e q).Done k ∧ q.marks.flagDirty k = true ∧
      q.graph.phony k = false ↔ k ∈ l) := by
    intro k hk
    rw [settle_done hk, hmem]
  rw [(settle_settles e q).ntotal, hl]
  split
  case isTrue hd =>
    rw [Bool.and_eq_true, Bool.not_eq_true'] at hd
    refine ⟨insert e l, (Finset.card_insert_of_notMem hfresh).symm, ?_⟩
    intro k
    rw [Finset.mem_insert]
    by_cases hke : k = e
    · subst hke
      exact iff_of_true (.inl rfl) ⟨h.settle_self, hd⟩
    · rw [or_iff_right hke]
      exact (hiff k hke).symm
  case isFalse hd =>
    refine ⟨l, rfl, ?_⟩
    intro k
    by_cases hke : k = e
    · subst hke
      refine iff_of_false hfresh ?_
      rintro ⟨-, hdirty, hph⟩
      refine hd ?_
      rw [Bool.and_eq_true, Bool.not_eq_true']
      exact ⟨hdirty, hph⟩
    · exact (hiff k hke).symm

theorem Looping.settle_planning (h : Looping w e (q.graph.ins e) p q)
    (hup : q.graph.phony e = false → q.marks.flagDirty e = false → UpToDate w q e) :
    Planning w (settle e q) := by
  have hs := settle_settles e q
  have hp := h.planning
  have hne : ∀ k, q.Done k → k ≠ e := fun k hk => h.ne hk
  have hold : ∀ k, q.Done k → (settle e q).Done k := fun k hk =>
    (settle_done (hne k hk)).mpr hk
  refine ⟨hp.wf, hp.bound, ?_, hp.clean, ?_, h.settle_once, ?_, h.settle_total,
    hs.lists _ Located.stable hp.located, hs.lists _ Pooled.stable hp.pooled, ?_⟩
  case refine_1 =>
    intro k hk
    by_cases hke : k = e
    · exact hke ▸ h.adding.1
    · exact hp.cycle k ((Function.update_of_ne hke ..).symm.trans hk)
  case refine_2 =>
    rw [hs.trace]
    split
    · exact List.forall_mem_cons.mpr ⟨⟨e, rfl⟩, hp.trace⟩
    · exact hp.trace
  case refine_3 =>
    intro k hk
    rw [hs.trace] at hk
    split at hk
    · rcases List.mem_cons.mp hk with heq | hk
      · cases heq
        exact h.settle_self
      · exact hold k (hp.queued k hk)
    · exact hold k (hp.queued k hk)
  case refine_4 =>
    intro k hk
    by_cases hke : k = e
    · exact hke ▸ h.settle_edge hup
    · exact h.settle_keeps.ok hne hp.ok ((settle_done hke).mp hk)

theorem Looping.settle_built (h : Looping w e (q.graph.ins e) p q)
    (hup : q.graph.phony e = false → q.marks.flagDirty e = false → UpToDate w q e)
    (hgen : q.graph.gen n = some e) (hnew : p.marks.work e = false)
    (hcycle : p.marks.cycle e = false) : Built w n p (settle e q) := by
  refine ⟨h.settle_planning hup, h.keeps.trans h.settle_keeps ?_, ?_,
    .inr ⟨e, hgen, h.adding.1, Function.update_self ..⟩, fun k hk => (h.pending k hk).1,
    h.maxjobs⟩
  · intro k hk _
    have hke : k ≠ e := by
      rintro rfl
      cases hnew.symm.trans hk
    exact ⟨hke, hke⟩
  · funext k
    by_cases hke : k = e
    · subst hke
      exact (Function.update_self ..).trans hcycle.symm
    · exact (Function.update_of_ne hke ..).trans (h.cycle k hke)

/-! ### A node without an edge -/

theorem statUnknown_eq (m : Marks) (n : ℕ) :
    m.statUnknown w n = { m with mtime := (m.statUnknown w n).mtime } := by
  unfold Marks.statUnknown
  split <;> rfl

theorem built_leaf (hp : Planning w p) (hgen : p.graph.gen n = none)
    (hexists : (p.marks.statUnknown w n).mtime n ≠ mtimeMissing) :
    Built w n p { p with marks := { p.marks.statUnknown w n with
      dirty := update (p.marks.statUnknown w n).dirty n false } } := by
  have hstat : ∀ k, time w (p.marks.statUnknown w n) k = time w p.marks k := fun k =>
    time_statUnknown n
  have hn : time w p.marks n ≠ mtimeMissing := hexists
  have hmtime : ∀ k, k = n ∨ p.marks.mtime k = time w p.marks k →
      (p.marks.statUnknown w n).mtime k = time w p.marks k := by
    intro k hk
    by_cases hkn : k = n
    · rw [hkn, time]
    · rw [statUnknown_mtime, if_neg (fun h => hkn h.1)]
      exact hk.resolve_left hkn
  rw [statUnknown_eq] at hstat ⊢
  set m : Marks := { p.marks with mtime := (p.marks.statUnknown w n).mtime }
  have htime : ∀ k, time w { m with dirty := update m.dirty n false } k = time w p.marks k := by
    intro k
    rw [← hstat k, time_eq, time_eq]
  have hkeeps : Keeps w (fun _ => True) p
      { p with marks := { m with dirty := update m.dirty n false } } := by
    refine ⟨?_, fun _ _ h => h, ?_, htime, ?_, rfl, rfl⟩
    · intro k _ _
      refine ⟨rfl, rfl, rfl, rfl, rfl, rfl, rfl, rfl, rfl, rfl, rfl, rfl, ?_, rfl⟩
      intro k' hk'
      refine Function.update_of_ne ?_ ..
      rintro rfl
      rw [hp.wf.mem_outs, hgen] at hk'
      cases hk'
    · exact fun k hk => ⟨fun h => hk.exists_ ((htime k).symm.trans h), hk.phony, hk.ins, hk.outs,
        hk.clean, hk.free⟩
    · exact fun k hk => (hmtime k (.inr hk)).trans (htime k).symm
  refine ⟨⟨hp.wf, hp.bound, hp.cycle, hp.clean, hp.trace, hp.once, hp.queued, hp.total, ?_, ?_, ?_⟩,
    hkeeps, rfl, .inl ⟨hgen, Function.update_self .., fun h => hn ((htime n).symm.trans h),
      (hmtime n (.inl rfl)).trans (htime n).symm⟩,
    fun _ hk => hk, rfl⟩
  · exact hp.located.congr rfl rfl rfl rfl
  · exact hp.pooled.congr rfl rfl rfl rfl rfl rfl
  · exact fun k hk => hkeeps.ok (fun _ _ => trivial) hp.ok hk

/-! ### All edges -/

open scoped Classical in
/-- The edges that `buildadd` may still go through. -/
noncomputable def Plan.pending (p : Plan) : Finset ℕ :=
  (Finset.range p.graph.edges).filter p.Pending

theorem mem_pending {k : ℕ} : k ∈ p.pending ↔ p.Pending k := by
  classical
  rw [Plan.pending, Finset.mem_filter, Finset.mem_range]
  exact and_iff_right_of_imp fun h => h.1

/-- An edge that is entered is not pending any more. -/
theorem card_pending_lt (he : p.Pending e) (h : ∀ k, q.Pending k → p.Pending k ∧ k ≠ e) :
    q.pending.card < p.pending.card := by
  refine Finset.card_lt_card (Finset.ssubset_iff_of_subset ?_ |>.mpr ?_)
  · exact fun k hk => mem_pending.mpr (h k (mem_pending.mp hk)).1
  · exact ⟨e, mem_pending.mpr he, fun hk => (h e (mem_pending.mp hk)).2 rfl⟩

/-- `buildadd` ends, and the counters are as the scheduler needs them, or a file is missing or the
graph has a cycle. -/
theorem buildadd_built (hw : w.Plain) (fuel : ℕ) (hp : Planning w p)
    (hfuel : p.pending.card + 2 ≤ fuel) (n : ℕ) :
    Gives Refused (Built w n p) (buildadd w fuel n p) := by
  induction fuel generalizing n p with
  | zero => omega
  | succ fuel ih =>
    rw [buildadd]
    cases hgen : p.graph.gen n with
    | none =>
      dsimp only
      split
      case isTrue => trivial
      case isFalse hexists => exact built_leaf hp hgen hexists
    | some e =>
      have he := hp.wf.lt_edges n e hgen
      dsimp only
      split
      case isTrue => trivial
      case isFalse hcycle =>
        rw [Bool.not_eq_true] at hcycle
        split
        case isTrue hwork =>
          exact ⟨hp, .refl p, rfl, .inr ⟨e, hgen, hwork, hcycle⟩, fun _ hk => hk, rfl⟩
        case isFalse hnew =>
          rw [Bool.not_eq_true] at hnew
          have hent := enter_entered hw hp he hnew
          have hloop := hent.looping hp hnew he
          have hscan : Scanned w e [] (enter w e p) none := ⟨by simp, by simp, by simp⟩
          refine (hloop.inputs ?_ _ hscan rfl ?_).bind ?_
          · intro n' q hq hsub hne
            refine ih hq ?_ n'
            have hpend : p.Pending e := by
              refine ⟨he, hnew, ?_⟩
              rintro ⟨hph, hnil⟩
              exact hne ((hent.plain hph).2.trans hnil)
            have hlt := card_pending_lt hpend hsub
            omega
          · simp
          · intro r hr
            obtain ⟨hr, hs⟩ := hr
            refine Looping.settle_built hr.checkouts ?_ ?_ hnew hcycle
            · intro hph hd
              obtain ⟨heq, hclean⟩ := checkouts_clean _ _ (Bool.or_eq_false_iff.mp hd).2
              rw [heq] at hph hd ⊢
              exact hs.uptodate hr hph hd hclean
            rcases checkouts_cases w e r.2 (r.1.graph.outs e) r.1 with
              heq | ⟨k, -, -, heq⟩ <;>
            · rw [heq]
              exact hr.keeps.gen n e hgen

end Bootsh.Samu.Build
