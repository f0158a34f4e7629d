import Bootsh.Samu.BuildPools

/-!
Runs of the scheduler: nothing is started twice, or before what it waits for is done.
-/
namespace Bootsh.Samu.Build

open Function (update)
open Fallible (each Gives)

variable {g : Graph} {m : Marks} {s s' : Sched} {running : List ℕ}

/-! ### Marks that stay -/

/-- The flags that count for what is to be built. -/
structure SameFlags (m m' : Marks) : Prop where
  work : m'.work = m.work
  dirtyIn : m'.dirtyIn = m.dirtyIn
  dirtyOut : m'.dirtyOut = m.dirtyOut

theorem SameFlags.trans {m₁ m₂ m₃ : Marks} (h : SameFlags m₁ m₂) (h' : SameFlags m₂ m₃) :
    SameFlags m₁ m₃ :=
  ⟨h'.work.trans h.work, h'.dirtyIn.trans h.dirtyIn, h'.dirtyOut.trans h.dirtyOut⟩

theorem SameFlags.flagDirty {m m' : Marks} (h : SameFlags m m') : m'.flagDirty = m.flagDirty := by
  funext e
  rw [Marks.flagDirty, Marks.flagDirty, h.dirtyIn, h.dirtyOut]

theorem SameFlags.symm {m m' : Marks} (h : SameFlags m m') : SameFlags m' m :=
  ⟨h.work.symm, h.dirtyIn.symm, h.dirtyOut.symm⟩

theorem Active.flags {m m' : Marks} (h : SameFlags m m') {e : ℕ} (he : Active g m e) :
    Active g m' e := by
  induction he with
  | dirty hw hd => exact .dirty (h.work ▸ hw) (h.flagDirty ▸ hd)
  | input hw hn hgen _ ih => exact .input (h.work ▸ hw) hn hgen ih

theorem SameFlags.active {m m' : Marks} (h : SameFlags m m') : Active g m' = Active g m := by
  funext e
  exact propext ⟨Active.flags h.symm, Active.flags h⟩

theorem Counted.flags {m m' : Marks} (hm : SameFlags m m') {todo pend : List ℕ} {owed : ℕ}
    (h : Counted g m todo pend owed s) : Counted g m' todo pend owed s := by
  have hout : ∀ e, outstanding g m' todo pend s.trace e = outstanding g m todo pend s.trace e := by
    intro e
    unfold outstanding Waits
    rw [hm.active]
  have hcount : unpruned g m' s.trace = unpruned g m s.trace := by
    unfold unpruned Marks.counts
    rw [hm.work, hm.flagDirty]
  obtain ⟨h₁, h₂, h₃, h₄, h₅, h₆, h₇, h₈, h₉, h₁₀, h₁₁, h₁₂, h₁₃, h₁₄⟩ := h
  refine ⟨?_, ?_, ?_, ?_, ?_, ?_, ?_, h₈, h₉, h₁₀, h₁₁, ?_, ?_, ?_⟩
  · simpa only [hm.work, hout] using h₁
  · simpa only [hm.work, hout] using h₂
  · simpa only [hm.work, hm.dirtyOut] using h₃
  · simpa only [hm.work, hm.flagDirty] using h₄
  · simpa only [hm.active] using h₅
  · simpa only [hm.active] using h₆
  · simpa only [hm.flagDirty] using h₇
  · simpa only [hm.work] using h₁₂
  · simpa only [hm.work, hm.active] using h₁₃
  · rwa [hcount]

/-! ### The outputs of an edge that is done -/

/-- What the end of an edge leaves as it is. -/
structure Onward (p p' : Plan) : Prop where
  graph : p'.graph = p.graph
  flags : SameFlags p.marks p'.marks
  trace : p.sched.trace <:+ p'.sched.trace
  lists : ∀ P, Stable p.graph P → P p.sched → P p'.sched

theorem Onward.trans {p₁ p₂ p₃ : Plan} (h : Onward p₁ p₂) (h' : Onward p₂ p₃) : Onward p₁ p₃ :=
  ⟨h'.graph.trans h.graph, h.flags.trans h'.flags, h.trace.trans h'.trace,
    fun P hP hp => h'.lists P (h.graph ▸ hP) (h.lists P hP hp)⟩

def Plan.Counted (p : Plan) (todo : List ℕ) : Prop :=
  Build.Counted p.graph p.marks todo [] 0 p.sched

theorem card_unreleased {t : List Action} : (unreleased g t).card < g.edges + 1 := by
  classical
  have h := Finset.card_filter_le (Finset.range g.edges) fun e => ¬Released t e
  rw [Finset.card_range] at h
  exact Nat.lt_succ_of_le h

theorem plan_nodedone {p : Plan} (hg : p.graph.Wf) {n : ℕ} {todo : List ℕ} (prune : Bool)
    (h : p.Counted (n :: todo)) :
    ∃ p', Plan.nodedone n prune p = .ok p' ∧ p'.Counted todo ∧ Onward p p' := by
  obtain ⟨s', hs', h', htr⟩ := nodedone_ends hg p.fuel n prune todo [] 0 p.sched h card_unreleased
  refine ⟨{ p with sched := s' }, by rw [Plan.nodedone, hs', Except.map], h', rfl,
    ⟨rfl, rfl, rfl⟩, htr, ?_⟩
  exact fun P hP hp => hP.nodedone _ n prune _ _ hp hs'

/-- The calls for a list of outputs, with other marks each time. -/
theorem outs_done (p : Plan) {turn : ℕ → Plan → Except Halt Plan}
    (hturn : ∀ n p, ∃ m' prune, SameFlags p.marks m' ∧
      turn n p = Plan.nodedone n prune { p with marks := m' })
    (hg : p.graph.Wf) (ns : List ℕ) (h : p.Counted ns) :
    ∃ p', each turn ns p = .ok p' ∧ p'.Counted [] ∧ Onward p p' := by
  induction ns generalizing p with
  | nil => exact ⟨p, rfl, h, rfl, ⟨rfl, rfl, rfl⟩, List.suffix_refl _, fun _ _ hp => hp⟩
  | cons n ns ih =>
    obtain ⟨m', prune, hm, hstep⟩ := hturn n p
    obtain ⟨p₁, hp₁, hc₁, ho₁⟩ := plan_nodedone (p := { p with marks := m' }) hg prune (h.flags hm)
    have hp : Onward p { p with marks := m' } :=
      ⟨rfl, hm, List.suffix_refl _, fun _ _ hp => hp⟩
    obtain ⟨p₂, hp₂, hc₂, ho₂⟩ := ih p₁ (ho₁.graph ▸ hg) hc₁
    refine ⟨p₂, ?_, hc₂, (hp.trans ho₁).trans ho₂⟩
    rw [each, hstep, hp₁]
    exact hp₂

theorem shouldprune_flags {stat : ℕ → ℤ} {e n : ℕ} {old : ℤ} :
    SameFlags m (shouldprune g stat e n old m).2 := by
  have hstat : ∀ (ns : List ℕ) (m : Marks), SameFlags m (ns.foldl (fun m k => m.stat stat k) m) := by
    intro ns
    induction ns with
    | nil => exact fun m => ⟨rfl, rfl, rfl⟩
    | cons k ns ih =>
      intro m
      have hone : SameFlags m (m.stat stat k) := ⟨rfl, rfl, rfl⟩
      exact hone.trans (ih _)
  unfold shouldprune
  split
  · exact ⟨rfl, rfl, rfl⟩
  · dsimp only
    split
    · exact (hstat _ m).trans ⟨rfl, rfl, rfl⟩
    · exact hstat _ m

theorem outmarks_flags {stat : ℕ → ℤ} {e n : ℕ} : SameFlags m (outmarks g stat e n m).2 := by
  unfold outmarks
  dsimp only
  split
  · exact ⟨shouldprune_flags.work, shouldprune_flags.dirtyIn, shouldprune_flags.dirtyOut⟩
  · exact ⟨rfl, rfl, rfl⟩

theorem resolved_done {e e' : ℕ} {a : Action} {t : List Action}
    (ha : a = .finish e ∨ a = .skip e) (hne : e' ≠ e) : Resolved (a :: t) e' ↔ Resolved t e' := by
  rw [resolved_cons]
  rcases ha with rfl | rfl <;> simp [hne.symm]

/-- The same counters, and as many edges that are ready or pruned. -/
theorem Counted.of_same {todo todo' : List ℕ} (h : Counted g m todo [] 0 s)
    (hb : s'.nblock = s.nblock) (hp : s'.nprune = s.nprune) (ht : s'.ntotal = s.ntotal)
    (hqueue : ∀ e, s'.trace.count (.queue e) = s.trace.count (.queue e))
    (hprune : ∀ e, s'.trace.count (.prune e) = s.trace.count (.prune e))
    (hres : ∀ e, Resolved s'.trace e → Released s.trace e)
    (hwaits : ∀ n, Waits g m todo' s'.trace n ↔ Waits g m todo s.trace n)
    (hcalls : ∀ n ∈ todo', ∃ e, g.gen n = some e ∧ Resolved s'.trace e) (hnodup : todo'.Nodup) :
    Counted g m todo' [] 0 s' := by
  have hq : ∀ e, .queue e ∈ s'.trace ↔ .queue e ∈ s.trace := by
    intro e
    rw [← List.count_pos_iff, hqueue, List.count_pos_iff]
  have hpr : ∀ e, .prune e ∈ s'.trace ↔ .prune e ∈ s.trace := by
    intro e
    rw [← List.count_pos_iff, hprune, List.count_pos_iff]
  have hrel : ∀ e, Released s'.trace e ↔ Released s.trace e := by
    intro e
    rw [Released, Released, hq, hpr]
  have hout : ∀ e, outstanding g m todo' [] s'.trace e = outstanding g m todo [] s.trace e :=
    fun e => outstanding_congr fun n _ => hwaits n
  refine ⟨?_, ?_, ?_, ?_, ?_, ?_, ?_, ?_, ?_, hcalls, hnodup, h.bound, h.due, ?_⟩
  case refine_1 => simpa only [hrel, hout] using h.released
  case refine_2 => simpa only [hrel, hout, hb] using h.waiting
  case refine_3 => simpa only [hrel, hb, hp] using h.prunable
  case refine_4 => simpa only [hrel, hb, hp] using h.clean
  case refine_5 => simpa only [hrel, hb] using h.blocked
  case refine_6 => simpa only [hrel] using h.active
  case refine_7 => simpa only [hq] using h.dirty
  case refine_8 => exact fun e hr => (hrel e).mpr (hres e hr)
  case refine_9 => simpa only [hqueue, hprune] using h.once
  case refine_10 =>
    rw [ht, h.total]
    simp only [unpruned, hpr]

/-- A ready edge is done: `nodedone` follows for its outputs. -/
theorem Counted.done (hg : g.Wf) {e : ℕ} {a : Action} (ha : a = .finish e ∨ a = .skip e)
    (h : Counted g m [] [] 0 s) (hrel : Released s.trace e) (hnot : ¬Resolved s.trace e) :
    Counted g m (g.outs e) [] 0 (s.act a) := by
  have hres : Resolved (s.act a).trace e := by
    rcases ha with rfl | rfl
    · exact .inl List.mem_cons_self
    · exact .inr (.inl List.mem_cons_self)
  refine h.of_same rfl rfl rfl ?_ ?_ ?_ ?_ ?_ (hg.nodup_outs e)
  case refine_1 =>
    intro e'
    rcases ha with rfl | rfl <;> simp [Sched.act]
  case refine_2 =>
    intro e'
    rcases ha with rfl | rfl <;> simp [Sched.act]
  case refine_3 =>
    intro e' hr
    by_cases hne : e' = e
    · exact hne ▸ hrel
    · exact h.resolved e' ((resolved_done ha hne).mp hr)
  case refine_4 =>
    intro n
    unfold Waits
    refine exists_congr fun e' => and_congr_right fun hgen => and_congr_right fun _ => ?_
    rw [hg.mem_outs, hgen]
    by_cases hne : e' = e
    · subst hne
      simp [hnot]
    · rw [Sched.act, resolved_done ha hne]
      simp [hne]
  case refine_5 => exact fun n hn => ⟨e, (hg.mem_outs n e).mp hn, hres⟩

/-- An action by which no edge becomes ready or done, and other lists. -/
theorem Counted.act {e : ℕ} {a : Action} (h : Counted g m [] [] 0 s)
    (ha : a = .start e ∨ a = .nostart e ∨ a = .fail e) : Counted g m [] [] 0 (s.act a) := by
  have hres : ∀ e', Resolved (s.act a).trace e' ↔ Resolved s.trace e' := by
    intro e'
    rw [Sched.act, resolved_cons]
    rcases ha with rfl | rfl | rfl <;> simp
  refine h.of_same rfl rfl rfl ?_ ?_ ?_ ?_ (by simp) .nil
  case refine_1 =>
    intro e'
    rcases ha with rfl | rfl | rfl <;> simp [Sched.act]
  case refine_2 =>
    intro e'
    rcases ha with rfl | rfl | rfl <;> simp [Sched.act]
  case refine_3 => exact fun e' hr => h.resolved e' ((hres e').mp hr)
  case refine_4 =>
    intro n
    unfold Waits
    simp only [hres]

/-- Only the lists differ. -/
theorem Counted.lists (h : Counted g m [] [] 0 s) (hb : s'.nblock = s.nblock)
    (hp : s'.nprune = s.nprune) (ht : s'.ntotal = s.ntotal) (htr : s'.trace = s.trace) :
    Counted g m [] [] 0 s' := by
  refine h.of_same hb hp ht ?_ ?_ ?_ ?_ (by simp) .nil
  · exact fun e => by rw [htr]
  · exact fun e => by rw [htr]
  · exact fun e hr => h.resolved e (htr ▸ hr)
  · exact fun n => by rw [htr]

/-! ### The order -/

/-- When an edge was taken from the list `work`, the edges that make its inputs were done, as far as
they were to be built. The last action comes first. -/
def InOrder (g : Graph) (m : Marks) (t : List Action) : Prop :=
  ∀ t₁ t₂ e a, t = t₁ ++ a :: t₂ → (a = .start e ∨ a = .nostart e ∨ a = .skip e) →
    ∀ n ∈ g.ins e, ∀ e', g.gen n = some e' → Active g m e' → Resolved t₂ e'

variable {t : List Action}

theorem InOrder.cons {a : Action} (h : InOrder g m t)
    (ha : ∀ e, (a = .start e ∨ a = .nostart e ∨ a = .skip e) →
      ∀ n ∈ g.ins e, ∀ e', g.gen n = some e' → Active g m e' → Resolved t e') :
    InOrder g m (a :: t) := by
  intro t₁ t₂ e b heq hb
  cases t₁ with
  | nil =>
    cases heq
    exact ha e hb
  | cons c t₁ =>
    cases heq
    exact h t₁ t₂ e b rfl hb

theorem InOrder.stable : Stable g fun s => InOrder g m s.trace := by
  refine ⟨?_, ?_, ?_⟩
  · exact fun s s' hsame h => hsame.trace ▸ h
  · exact fun s e h => h.cons (by simp)
  · intro s e h
    rw [queue_trace]
    exact h.cons (by simp)

/-- An edge waits for none of its inputs when it is ready. -/
theorem Counted.inputs_done {e n e' : ℕ} (h : Counted g m [] [] 0 s) (hw : m.work e = true)
    (hrel : Released s.trace e) (hn : n ∈ g.ins e) (hgen : g.gen n = some e')
    (hact : Active g m e') : Resolved s.trace e' := by
  classical
  by_contra hnot
  have hzero := h.released e hw hrel
  have hcount := (Nat.add_eq_zero_iff.mp hzero).2
  rw [List.countP_eq_zero] at hcount
  exact hcount n hn (decide_eq_true ⟨e', hgen, hact, .inl hnot⟩)

/-! ### Steps -/

/-- The action counts in `nstarted`. -/
def begun (g : Graph) : Action → Bool
  | .start _ => true
  | .nostart _ => true
  | .skip e => !g.phony e
  | _ => false

/-- The action counts in `numfail`. -/
def failure : Action → Bool
  | .nostart _ => true
  | .fail _ => true
  | _ => false

/-- Commands are for edges that are not phony, and in a dry run there are none. -/
def Allowed (o : Options) (g : Graph) : Action → Prop
  | .start e | .nostart e => g.phony e = false ∧ o.dryrun = false
  | .skip e => g.phony e = true ∨ o.dryrun = true
  | _ => True

/-- What holds in every state of `build`. -/
structure Good (o : Options) (b : State) : Prop where
  wf : b.plan.graph.Wf
  counted : b.plan.Counted []
  located : Located b.plan.graph b.running b.plan.sched
  pooled : Pooled b.plan.graph b.running b.plan.sched
  inOrder : InOrder b.plan.graph b.plan.marks b.plan.sched.trace
  allowed : ∀ a ∈ b.plan.sched.trace, Allowed o b.plan.graph a
  nstarted : b.nstarted = b.plan.sched.trace.countP (begun b.plan.graph)
  numfail : b.numfail = b.plan.sched.trace.countP failure
  nfinished : b.nfinished + b.running.length ≤ b.nstarted
  jobs : b.running.length ≤ max 1 o.maxjobs
  maxjobs : b.maxjobs = 1 ∨ b.maxjobs = o.maxjobs

theorem stable_allowed {o : Options} : Stable g fun s => ∀ a ∈ s.trace, Allowed o g a := by
  refine ⟨?_, ?_, ?_⟩
  · exact fun s s' hsame h => hsame.trace ▸ h
  · exact fun s e h => List.forall_mem_cons.mpr ⟨trivial, h⟩
  · intro s e h
    rw [queue_trace]
    exact List.forall_mem_cons.mpr ⟨trivial, h⟩

/-- The number of actions of a kind other than making ready and pruning. -/
theorem stable_countP {f : Action → Bool} {k : ℕ} (hqueue : ∀ e, f (.queue e) = false)
    (hprune : ∀ e, f (.prune e) = false) : Stable g fun s => s.trace.countP f = k := by
  refine ⟨?_, ?_, ?_⟩
  · exact fun s s' hsame h => hsame.trace ▸ h
  · intro s e h
    rw [Sched.act, List.countP_cons_of_neg (by simp [hprune])]
    exact h
  · intro s e h
    rw [queue_trace, List.countP_cons_of_neg (by simp [hqueue])]
    exact h

/-- The first edge of the list `work` is ready, and its inputs are done. -/
theorem Good.front {o : Options} {b : State} (h : Good o b) {e : ℕ}
    (he : e ∈ b.plan.sched.work ∨ e ∈ b.running) :
    Released b.plan.sched.trace e ∧ ¬Resolved b.plan.sched.trace e ∧
      ∀ n ∈ b.plan.graph.ins e, ∀ e', b.plan.graph.gen n = some e' →
        Active b.plan.graph b.plan.marks e' → Resolved b.plan.sched.trace e' := by
  obtain ⟨hq, hnot⟩ := h.located.not_resolved h.counted he
  have hrel : Released b.plan.sched.trace e := .inl hq
  have hw := (h.counted.active e hrel).work
  exact ⟨hrel, hnot, fun n hn e' hgen hact => h.counted.inputs_done hw hrel hn hgen hact⟩

/-- What a step has to keep of the plan, when edges are done in it. -/
theorem Good.onward {o : Options} {b' : State} {p : Plan} (ho : Onward p b'.plan)
    (hg : p.graph.Wf) (hc : b'.plan.Counted []) (hl : Located p.graph b'.running p.sched)
    (hp : Pooled p.graph b'.running p.sched) (ht : InOrder p.graph p.marks p.sched.trace)
    (hall : ∀ a ∈ p.sched.trace, Allowed o p.graph a)
    (hst : b'.nstarted = p.sched.trace.countP (begun p.graph))
    (hfail : b'.numfail = p.sched.trace.countP failure)
    (hfin : b'.nfinished + b'.running.length ≤ b'.nstarted)
    (hjobs : b'.running.length ≤ max 1 o.maxjobs) (hmax : b'.maxjobs = 1 ∨ b'.maxjobs = o.maxjobs) :
    Good o b' := by
  have hact : Active p.graph b'.plan.marks = Active p.graph p.marks := ho.flags.active
  refine ⟨?_, hc, ?_, ?_, ?_, ?_, ?_, ?_, hfin, hjobs, hmax⟩
  · rwa [ho.graph]
  · rw [ho.graph]
    exact ho.lists _ Located.stable hl
  · rw [ho.graph]
    exact ho.lists _ Pooled.stable hp
  · rw [ho.graph]
    have htrace := ho.lists _ InOrder.stable ht
    unfold InOrder at htrace ⊢
    rwa [hact]
  · rw [ho.graph]
    exact ho.lists _ stable_allowed hall
  · rw [ho.graph]
    exact (ho.lists _ (stable_countP (fun _ => rfl) (fun _ => rfl)) hst.symm).symm
  · exact (ho.lists _ (stable_countP (fun _ => rfl) (fun _ => rfl)) hfail.symm).symm

/-- What a step leaves as it is. -/
structure Follows (b b' : State) : Prop where
  graph : b'.plan.graph = b.plan.graph
  flags : SameFlags b.plan.marks b'.plan.marks
  trace : b.plan.sched.trace <:+ b'.plan.sched.trace

theorem Follows.trans {b b' b'' : State} (h : Follows b b') (h' : Follows b' b'') : Follows b b'' :=
  ⟨h'.graph.trans h.graph, h.flags.trans h'.flags, h.trace.trans h'.trace⟩

/-- The plan without the first edge of the list `work`. -/
def State.take (rest : List ℕ) (b : State) : State :=
  { b with plan := { b.plan with sched := { b.plan.sched with work := rest } } }

section

variable {w : Records} {o : Options} {b : State} {e : ℕ} {rest : List ℕ}

theorem Good.counted_take (h : Good o b) (rest : List ℕ) : Counted b.plan.graph b.plan.marks [] [] 0
    (b.take rest).plan.sched := Counted.lists h.counted rfl rfl rfl rfl

/-- An edge that is taken from the list comes behind those that it needs. -/
theorem Good.inOrder_take {a : Action} (h : Good o b) (he : e ∈ b.plan.sched.work)
    (ha : a = .start e ∨ a = .nostart e ∨ a = .skip e) :
    InOrder b.plan.graph b.plan.marks (a :: b.plan.sched.trace) := by
  refine h.inOrder.cons ?_
  intro e' he'
  obtain rfl : e = e' := by rcases ha with rfl | rfl | rfl <;> simpa using he'
  exact (h.front (.inl he)).2.2

theorem good_skip (h : Good o b) (hwork : b.plan.sched.work = e :: rest)
    (hskip : b.plan.graph.phony e = true ∨ o.dryrun = true) :
    ∃ b', skipedge (b.take rest) e = .ok b' ∧ Good o b' ∧ Follows b b' := by
  have hfirst : e ∈ b.plan.sched.work := hwork ▸ List.mem_cons_self
  obtain ⟨hrel, hnot, -⟩ := h.front (.inl hfirst)
  set p : Plan := { b.plan with sched := (b.take rest).plan.sched.act (.skip e) } with hp
  have hcounted : p.Counted (p.graph.outs e) :=
    (h.counted_take rest).done h.wf (.inr rfl) hrel hnot
  have hturn : ∀ n (p : Plan), ∃ m' prune, SameFlags p.marks m' ∧
      Plan.nodedone n false p = Plan.nodedone n prune { p with marks := m' } :=
    fun n p => ⟨p.marks, false, ⟨rfl, rfl, rfl⟩, rfl⟩
  obtain ⟨p', hp', hc', ho⟩ := outs_done p hturn h.wf _ hcounted
  have htr : p.sched.trace = .skip e :: b.plan.sched.trace := rfl
  refine ⟨{ b with
    plan := p'
    nstarted := b.nstarted + if b.plan.graph.phony e then 0 else 1
    nfinished := b.nfinished + if b.plan.graph.phony e then 0 else 1 }, ?_, ?_, ?_⟩
  case refine_1 =>
    change (each (fun n => Plan.nodedone n false) (p.graph.outs e) p).map _ = _
    rw [hp']
    rfl
  case refine_2 =>
    refine Good.onward ho h.wf hc' (h.located.leave hwork (.inr rfl))
      (h.pooled.leave hwork (.inr rfl)) ?_ ?_ ?_ ?_ ?_ h.jobs h.maxjobs
    · rw [htr]
      exact h.inOrder_take hfirst (.inr (.inr rfl))
    · exact List.forall_mem_cons.mpr ⟨hskip, h.allowed⟩
    · rw [htr, List.countP_cons, ← h.nstarted]
      cases hph : b.plan.graph.phony e <;> simp [begun, hp, hph]
    · exact h.numfail.trans (List.countP_cons_of_neg (by simp [failure])).symm
    · have := h.nfinished
      dsimp only
      omega
  case refine_3 => exact ⟨ho.graph, ho.flags, (List.suffix_cons _ _).trans ho.trace⟩

/-- The job of the first edge starts, or does not. -/
theorem good_start (h : Good o b) (hwork : b.plan.sched.work = e :: rest)
    (hjobs : b.running.length < b.maxjobs)
    (hstart : b.plan.graph.phony e = false ∧ o.dryrun = false) (started : Bool) :
    Good o (startedge (b.take rest) started e) ∧
      Follows b (startedge (b.take rest) started e) := by
  have hfirst : e ∈ b.plan.sched.work := hwork ▸ List.mem_cons_self
  have hmax := h.maxjobs
  cases started with
  | false =>
    refine ⟨⟨h.wf, ?_, ?_, ?_, ?_, ?_, ?_, ?_, ?_, h.jobs, h.maxjobs⟩, rfl, ⟨rfl, rfl, rfl⟩,
      List.suffix_cons _ _⟩
    · exact (h.counted_take rest).act (.inr (.inl rfl))
    · exact h.located.leave hwork (.inl rfl)
    · exact h.pooled.leave hwork (.inl rfl)
    · exact h.inOrder_take hfirst (.inr (.inl rfl))
    · exact List.forall_mem_cons.mpr ⟨hstart, h.allowed⟩
    · change b.nstarted + 1 = (Action.nostart e :: b.plan.sched.trace).countP _
      rw [List.countP_cons_of_pos rfl, h.nstarted]
      rfl
    · change b.numfail + 1 = (Action.nostart e :: b.plan.sched.trace).countP _
      rw [List.countP_cons_of_pos rfl, h.numfail]
    · exact h.nfinished.trans (Nat.le_succ _)
  | true =>
    refine ⟨⟨h.wf, ?_, ?_, ?_, ?_, ?_, ?_, ?_, ?_, ?_, h.maxjobs⟩, rfl, ⟨rfl, rfl, rfl⟩,
      List.suffix_cons _ _⟩
    · exact (h.counted_take rest).act (.inl rfl)
    · exact h.located.start hwork
    · exact h.pooled.start hwork
    · exact h.inOrder_take hfirst (.inl rfl)
    · exact List.forall_mem_cons.mpr ⟨hstart, h.allowed⟩
    · change b.nstarted + 1 = (Action.start e :: b.plan.sched.trace).countP _
      rw [List.countP_cons_of_pos rfl, h.nstarted]
      rfl
    · exact h.numfail.trans (List.countP_cons_of_neg (by simp [failure])).symm
    · have := h.nfinished
      change b.nfinished + (e :: b.running).length ≤ b.nstarted + 1
      rw [List.length_cons]
      omega
    · change (e :: b.running).length ≤ _
      rw [List.length_cons]
      omega

theorem Good.started (h : Good o b) (he : e ∈ b.running) : .start e ∈ b.plan.sched.trace := by
  have hs := h.located.started e
  have hpos := List.count_pos_iff.mpr he
  exact List.count_pos_iff.mp (by omega)

theorem Good.nfinished_erase (h : Good o b) (he : e ∈ b.running) :
    b.nfinished + 1 + (b.running.erase e).length ≤ b.nstarted := by
  have hle := h.nfinished
  have hlen := List.length_erase_of_mem he
  have hpos := List.length_pos_of_mem he
  omega

theorem Good.counted_release (h : Good o b) (e : ℕ) : Counted b.plan.graph b.plan.marks [] [] 0
    (release b.plan.graph e b.plan.sched) := by
  obtain ⟨hblock, hprune, htotal⟩ := release_counters (g := b.plan.graph) (s := b.plan.sched)
  exact Counted.lists h.counted hblock hprune htotal release_trace

/-- The end of a job starts nothing. -/
theorem Good.ended {a : Action} (h : Good o b) (ha : a = .finish e ∨ a = .fail e) :
    InOrder b.plan.graph b.plan.marks ((release b.plan.graph e b.plan.sched).act a).trace ∧
      (∀ x ∈ ((release b.plan.graph e b.plan.sched).act a).trace, Allowed o b.plan.graph x) ∧
      b.nstarted = ((release b.plan.graph e b.plan.sched).act a).trace.countP
        (begun b.plan.graph) := by
  rw [Sched.act, release_trace]
  refine ⟨h.inOrder.cons ?_, ?_, ?_⟩
  · rcases ha with rfl | rfl <;> simp
  · refine List.forall_mem_cons.mpr ⟨?_, h.allowed⟩
    rcases ha with rfl | rfl <;> trivial
  · rw [List.countP_cons_of_neg (by rcases ha with rfl | rfl <;> simp [begun])]
    exact h.nstarted

/-- A job ends. -/
theorem good_done (h : Good o b) (he : e ∈ b.running) (failed : Bool) (stat : ℕ → ℤ) :
    ∃ p', jobdone w stat e failed b.plan = .ok p' ∧
      p'.graph = b.plan.graph ∧ SameFlags b.plan.marks p'.marks ∧
      b.plan.sched.trace <:+ p'.sched.trace ∧
      Good o { b with
        plan := p'
        nfinished := b.nfinished + 1
        running := b.running.erase e
        numfail := if failed then b.numfail + 1 else b.numfail } := by
  obtain ⟨hrel, hnot, -⟩ := h.front (.inr he)
  have hphony := (h.allowed _ (h.started he)).1
  have hfin := h.nfinished_erase he
  have hjobs : (b.running.erase e).length ≤ max 1 o.maxjobs :=
    (List.length_erase_le).trans h.jobs
  have hcounted := h.counted_release e
  cases failed with
  | true =>
    obtain ⟨hord, hall, hst⟩ := h.ended (e := e) (.inr rfl)
    refine ⟨_, rfl, rfl, ⟨rfl, rfl, rfl⟩, ?_, ?_⟩
    · change _ <:+ _ :: (release b.plan.graph e b.plan.sched).trace
      rw [release_trace]
      exact List.suffix_cons _ _
    · refine ⟨h.wf, hcounted.act (.inr (.inr rfl)), h.located.done (.inr rfl) he,
        h.pooled.done h.located (.inr rfl) he hphony, hord, hall, hst, ?_, hfin, hjobs, h.maxjobs⟩
      change b.numfail + 1 = (Action.fail e :: (release b.plan.graph e b.plan.sched).trace).countP _
      rw [release_trace, List.countP_cons_of_pos rfl, h.numfail]
  | false =>
    obtain ⟨hord, hall, hst⟩ := h.ended (e := e) (.inl rfl)
    set p : Plan := { b.plan with
      sched := (release b.plan.graph e b.plan.sched).act (.finish e) } with hp
    have hc : p.Counted (p.graph.outs e) := by
      refine hcounted.done h.wf (.inl rfl) ?_ ?_
      · rwa [release_trace]
      · rwa [release_trace]
    have hturn : ∀ n (p : Plan), ∃ m' prune, SameFlags p.marks m' ∧
        outdone stat e n p = Plan.nodedone n prune { p with marks := m' } :=
      fun n p => ⟨_, _, outmarks_flags, rfl⟩
    obtain ⟨p₁, hp₁, hc₁, ho₁⟩ := outs_done p hturn h.wf _ hc
    set m₁ : Marks := { p₁.marks with
      hash := fun n => if n ∈ p₁.graph.outs e then w.edgehash e else p₁.marks.hash n }
    have hflags : SameFlags p₁.marks m₁ := ⟨rfl, rfl, rfl⟩
    have hc₂ : Plan.Counted { p₁ with marks := m₁ } [] := Counted.flags hflags hc₁
    have ho : Onward p { p₁ with marks := m₁ } :=
      ⟨ho₁.graph, ho₁.flags.trans hflags, ho₁.trace, ho₁.lists⟩
    have hfail : b.numfail = p.sched.trace.countP failure := by
      rw [hp, Sched.act, release_trace, List.countP_cons_of_neg (by simp [failure])]
      exact h.numfail
    refine ⟨{ p₁ with marks := m₁ }, ?_, ho.graph, ho.flags, ?_, Good.onward ho h.wf hc₂
      (h.located.done (.inl rfl) he) (h.pooled.done h.located (.inl rfl) he hphony) hord hall hst
      hfail hfin hjobs h.maxjobs⟩
    · change edgedone w stat e p = _
      rw [edgedone, hp₁]
      rfl
    · refine List.IsSuffix.trans ?_ ho.trace
      change _ <:+ _ :: (release b.plan.graph e b.plan.sched).trace
      rw [release_trace]
      exact List.suffix_cons _ _

/-- A step keeps what holds, or it cannot be taken: no counter is decremented below zero, and every
computation ends. -/
theorem step_good (h : Good o b) (ev : Event) :
    Gives (· = .disabled) (fun b' => Good o b' ∧ Follows b b') (step w o b ev) := by
  cases ev with
  | start started =>
    rw [step]
    cases hwork : b.plan.sched.work with
    | nil => rfl
    | cons e rest =>
      dsimp only
      split
      case isTrue => rfl
      case isFalse hcan =>
        simp only [Bool.or_eq_true, not_or, Bool.not_eq_true, Bool.not_eq_false',
          State.canstart, Bool.and_eq_true, decide_eq_true_eq] at hcan
        split
        case isTrue hskip =>
          rw [Bool.or_eq_true] at hskip
          obtain ⟨b', hb', hgood⟩ := good_skip h hwork hskip
          change Gives _ _ (skipedge (b.take rest) e)
          rw [hb']
          exact hgood
        case isFalse hphony =>
          rw [Bool.or_eq_true, not_or, Bool.not_eq_true, Bool.not_eq_true] at hphony
          exact good_start h hwork hcan.2.1.2 hphony started
  | poll =>
    rw [step]
    split
    · rfl
    · exact ⟨{ h with }, rfl, ⟨rfl, rfl, rfl⟩, List.suffix_refl _⟩
  | done e failed stat =>
    rw [step]
    split
    case isTrue => rfl
    case isFalse hcan =>
      rw [Bool.or_eq_true, not_or, decide_eq_true_eq, not_not] at hcan
      obtain ⟨p', hp', hgraph, hflags, htr, hgood⟩ := good_done (w := w) h hcan.2 failed stat
      rw [hp']
      exact ⟨hgood, hgraph, hflags, htr⟩
  | again overload =>
    rw [step]
    split
    · rfl
    · refine ⟨{ h with maxjobs := ?_ }, rfl, ⟨rfl, rfl, rfl⟩, List.suffix_refl _⟩
      cases overload with
      | true => exact .inl rfl
      | false => exact .inr rfl

/-- A run of `build`. -/
def run (w : Records) (o : Options) : List Event → State → Except Halt State :=
  each fun ev b => step w o b ev

theorem run_good (h : Good o b) (evs : List Event) :
    Gives (· = .disabled) (fun b' => Good o b' ∧ Follows b b') (run w o evs b) := by
  induction evs generalizing b with
  | nil => exact ⟨h, rfl, ⟨rfl, rfl, rfl⟩, List.suffix_refl _⟩
  | cons ev evs ih =>
    refine (step_good h ev).bind ?_
    intro b₁ h₁
    exact (ih h₁.1).mono fun b₂ h₂ => ⟨h₂.1, h₁.2.trans h₂.2⟩

end

end Bootsh.Samu.Build
