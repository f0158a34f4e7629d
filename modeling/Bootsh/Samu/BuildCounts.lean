import Mathlib.Algebra.Order.BigOperators.Group.Finset
import Mathlib.Data.Finset.Card
import Mathlib.Data.List.Count
import Bootsh.Samu.Build

/-!
The counters of the scheduler: `nblock` is the number of inputs that an edge still waits for, so
that `nodedone` never decrements zero, makes every edge ready or prunes it at most once, and ends.
-/
namespace Bootsh.Samu.Build

open Function (update)
open Fallible (each)

/-- What the graph keeps: the edges that use a node are those that have it among their inputs, as
often as they have it, and the edge that makes a node is the one that has it among its outputs. -/
structure Graph.Wf (g : Graph) : Prop where
  count_use : ∀ n e, (g.use n).count e = (g.ins e).count n
  mem_outs : ∀ n e, n ∈ g.outs e ↔ g.gen n = some e
  nodup_outs : ∀ e, (g.outs e).Nodup
  lt_edges : ∀ n e, g.gen n = some e → e < g.edges
  ins_nil : ∀ e, g.edges ≤ e → g.ins e = []
  limit_none : ∀ e, g.edges ≤ e → g.limit e = none

/-- A node is an output of one edge only. -/
theorem Graph.Wf.eq_of_mem_outs {g : Graph} (hg : g.Wf) {n e k : ℕ} (he : n ∈ g.outs e)
    (hk : n ∈ g.outs k) : k = e := by
  rw [hg.mem_outs] at he hk
  exact Option.some.inj (hk.symm.trans he)

/-- An edge that is to be built: it is dirty, or one of its inputs waits for such an edge. -/
inductive Active (g : Graph) (m : Marks) : ℕ → Prop
  | dirty {e : ℕ} : m.work e = true → m.flagDirty e = true → Active g m e
  | input {e n e' : ℕ} : m.work e = true → n ∈ g.ins e → g.gen n = some e' → Active g m e' →
    Active g m e

/-- The edge is done: its command has succeeded, or it needs none. -/
def Resolved (t : List Action) (e : ℕ) : Prop := .finish e ∈ t ∨ .skip e ∈ t ∨ .prune e ∈ t

/-- The edge waits for no input any more. -/
def Released (t : List Action) (e : ℕ) : Prop := .queue e ∈ t ∨ .prune e ∈ t

section

variable (g : Graph) (m : Marks)

/-- `nodedone` has still to be called for the node: its edge is not done, or the node is on the list
of those for which the call follows. -/
def Waits (todo : List ℕ) (t : List Action) (n : ℕ) : Prop :=
  ∃ e, g.gen n = some e ∧ Active g m e ∧ (¬Resolved t e ∨ n ∈ todo)

open scoped Classical in
/-- How many visits of an edge are still to come, of which those of the list `pend` are due. -/
noncomputable def outstanding (todo pend : List ℕ) (t : List Action) (e : ℕ) : ℕ :=
  pend.count e + (g.ins e).countP fun n => decide (Waits g m todo t n)

/-- An edge that counts in `ntotal`. -/
def Marks.counts (e : ℕ) : Bool := m.work e && m.flagDirty e && !g.phony e

def unpruned (t : List Action) : Finset ℕ :=
  (Finset.range g.edges).filter fun e => Marks.counts g m e ∧ Action.prune e ∉ t

/-- The counters are right when `nodedone` has still to be called for the nodes of `todo`, the visits
of the edges of `pend` are due, and so are `owed` decrements of `ntotal`. -/
structure Counted (todo pend : List ℕ) (owed : ℕ) (s : Sched) : Prop where
  released : ∀ e, m.work e = true → Released s.trace e → outstanding g m todo pend s.trace e = 0
  waiting : ∀ e, m.work e = true → ¬Released s.trace e →
    s.nblock e = outstanding g m todo pend s.trace e
  prunable : ∀ e, m.work e = true → ¬Released s.trace e → m.dirtyOut e = false →
    s.nblock e ≤ s.nprune e
  clean : ∀ e, m.work e = true → ¬Released s.trace e → m.flagDirty e = false →
    s.nprune e = s.nblock e
  blocked : ∀ e, Active g m e → ¬Released s.trace e → 0 < s.nblock e
  active : ∀ e, Released s.trace e → Active g m e
  dirty : ∀ e, .queue e ∈ s.trace → m.flagDirty e = true
  resolved : ∀ e, Resolved s.trace e → Released s.trace e
  once : ∀ e, s.trace.count (.queue e) + s.trace.count (.prune e) ≤ 1
  calls : ∀ n ∈ todo, ∃ e, g.gen n = some e ∧ Resolved s.trace e
  distinct : todo.Nodup
  bound : ∀ e, m.work e = true → e < g.edges
  due : ∀ e ∈ pend, m.work e = true → Active g m e
  total : s.ntotal = (unpruned g m s.trace).card + owed

end

variable {g : Graph} {m : Marks} {todo pend : List ℕ} {owed : ℕ} {s : Sched} {t : List Action}

theorem Active.work {e : ℕ} (h : Active g m e) : m.work e = true := by
  cases h <;> assumption

/-! ### The visits that are due -/

theorem countP_add_count {p q : ℕ → Bool} {a : ℕ} (l : List ℕ) (hp : ∀ x, p x = (q x || x == a))
    (ha : q a = false) : l.countP p = l.countP q + l.count a := by
  induction l with
  | nil => rfl
  | cons x l ih =>
    rw [List.countP_cons, List.countP_cons, List.count_cons, ih, hp x]
    by_cases hx : x = a
    · subst hx
      simp [ha]
      omega
    · simp [hx]
      omega

theorem waits_cons {n x : ℕ} (hx : x ≠ n) :
    Waits g m (n :: todo) t x ↔ Waits g m todo t x := by
  simp [Waits, hx]

/-- The call for a node makes the visits of the edges that use it due. -/
theorem outstanding_use (hg : g.Wf) {n e₀ : ℕ} (hn : n ∉ todo) (hgen : g.gen n = some e₀)
    (hact : Active g m e₀) (hres : Resolved t e₀) (e : ℕ) :
    outstanding g m (n :: todo) pend t e = outstanding g m todo (g.use n ++ pend) t e := by
  classical
  have hq : decide (Waits g m todo t n) = false := by
    rw [decide_eq_false_iff_not]
    rintro ⟨e', hgen', -, hor⟩
    rw [hgen] at hgen'
    cases hgen'
    rcases hor with hor | hor
    · exact hor hres
    · exact hn hor
  have hp : ∀ x, decide (Waits g m (n :: todo) t x) = (decide (Waits g m todo t x) || x == n) := by
    intro x
    by_cases hx : x = n
    · subst hx
      simpa using ⟨e₀, hgen, hact, Or.inr List.mem_cons_self⟩
    · rw [beq_eq_false_iff_ne.mpr hx, Bool.or_false]
      exact decide_eq_decide.mpr (waits_cons hx)
  unfold outstanding
  rw [List.count_append, hg.count_use, countP_add_count _ hp hq]
  omega

theorem Counted.call (hg : g.Wf) {n : ℕ} (h : Counted g m (n :: todo) pend owed s) :
    Counted g m todo (g.use n ++ pend) owed s := by
  obtain ⟨e₀, hgen, hres⟩ := h.calls n List.mem_cons_self
  have hact := h.active e₀ (h.resolved e₀ hres)
  have hout : ∀ e, outstanding g m (n :: todo) pend s.trace e =
      outstanding g m todo (g.use n ++ pend) s.trace e :=
    outstanding_use hg (List.nodup_cons.mp h.distinct).1 hgen hact hres
  refine { h with
    released := ?_
    waiting := ?_
    calls := fun k hk => h.calls k (List.mem_cons_of_mem _ hk)
    distinct := (List.nodup_cons.mp h.distinct).2
    due := ?_ }
  · intro e he hr
    rw [← hout]
    exact h.released e he hr
  · intro e he hr
    rw [← hout]
    exact h.waiting e he hr
  · intro e he hw
    rcases List.mem_append.mp he with he | he
    · have hin : n ∈ g.ins e := by
        rw [← List.count_pos_iff, ← hg.count_use, List.count_pos_iff]
        exact he
      exact .input hw hin hgen hact
    · exact h.due e he hw

theorem outstanding_cons (a e : ℕ) : outstanding g m todo (a :: pend) t e =
    outstanding g m todo pend t e + if a = e then 1 else 0 := by
  unfold outstanding
  rw [List.count_cons]
  by_cases h : a = e
  · simp [h]
    omega
  · simp [h]

/-- A visit of an edge outside of this build. -/
theorem Counted.pass {e : ℕ} (h : Counted g m todo (e :: pend) owed s) (hw : m.work e = false) :
    Counted g m todo pend owed s := by
  have hne : ∀ e', m.work e' = true → e ≠ e' := by
    rintro e' hw' rfl
    rw [hw] at hw'
    cases hw'
  refine { h with
    released := ?_
    waiting := ?_
    due := fun k hk => h.due k (List.mem_cons_of_mem _ hk) }
  · intro e' hw' hr
    have := h.released e' hw' hr
    rwa [outstanding_cons, if_neg (hne e' hw')] at this
  · intro e' hw' hr
    have := h.waiting e' hw' hr
    rwa [outstanding_cons, if_neg (hne e' hw')] at this

/-- A visit comes only to an edge that waits. -/
theorem Counted.visited {e : ℕ} (h : Counted g m todo (e :: pend) owed s) (hw : m.work e = true) :
    ¬Released s.trace e ∧ s.nblock e = outstanding g m todo pend s.trace e + 1 := by
  have hnot : ¬Released s.trace e := by
    intro hr
    have hzero := h.released e hw hr
    rw [outstanding_cons, if_pos rfl] at hzero
    omega
  have hwait := h.waiting e hw hnot
  rw [outstanding_cons, if_pos rfl] at hwait
  exact ⟨hnot, hwait⟩

theorem unpruned_cons {a : Action} (h : ∀ e, a ≠ .prune e) :
    unpruned g m (a :: t) = unpruned g m t := by
  have hiff : ∀ e, Action.prune e ∈ a :: t ↔ Action.prune e ∈ t := by
    intro e
    rw [List.mem_cons, or_iff_right (h e).symm]
  simp only [unpruned, hiff]

theorem resolved_cons {a : Action} {e : ℕ} : Resolved (a :: t) e ↔
    (a = .finish e ∨ a = .skip e ∨ a = .prune e) ∨ Resolved t e := by
  simp only [Resolved, List.mem_cons]
  tauto

theorem released_cons {a : Action} {e : ℕ} :
    Released (a :: t) e ↔ (a = .queue e ∨ a = .prune e) ∨ Released t e := by
  simp only [Released, List.mem_cons]
  tauto

theorem outstanding_congr {t' : List Action} {todo' : List ℕ} {e : ℕ}
    (h : ∀ n ∈ g.ins e, Waits g m todo t n ↔ Waits g m todo' t' n) :
    outstanding g m todo pend t e = outstanding g m todo' pend t' e := by
  classical
  unfold outstanding
  congr 1
  refine List.countP_congr ?_
  intro n hn
  rw [decide_eq_true_iff, decide_eq_true_iff, h n hn]

/-- An edge that is released counts among those that may be built once. -/
theorem count_released {e : ℕ} (h : ¬Released t e) :
    t.count (.queue e) + t.count (.prune e) = 0 := by
  rw [Released, not_or] at h
  rw [List.count_eq_zero_of_not_mem h.1, List.count_eq_zero_of_not_mem h.2]

/-! ### Visits -/

@[simp] theorem queue_nblock {e : ℕ} : (queue g e s).nblock = s.nblock := by
  unfold queue
  grind [Sched.act]

@[simp] theorem queue_nprune {e : ℕ} : (queue g e s).nprune = s.nprune := by
  unfold queue
  grind [Sched.act]

@[simp] theorem queue_ntotal {e : ℕ} : (queue g e s).ntotal = s.ntotal := by
  unfold queue
  grind [Sched.act]

@[simp] theorem queue_trace {e : ℕ} : (queue g e s).trace = .queue e :: s.trace := by
  unfold queue
  grind [Sched.act]

/-- What a visit of `e` has to say about the counters of that edge. -/
structure Turn (g : Graph) (m : Marks) (e : ℕ) (s s' : Sched) : Prop where
  nblock : ∀ e', e' ≠ e → s'.nblock e' = s.nblock e'
  nprune : ∀ e', e' ≠ e → s'.nprune e' = s.nprune e'
  released : ∀ e', e' ≠ e → (Released s'.trace e' ↔ Released s.trace e')
  last : Released s'.trace e → s.nblock e = 1
  queued : .queue e ∈ s'.trace → m.flagDirty e = true
  others : ∀ e', e' ≠ e → .queue e' ∈ s'.trace → .queue e' ∈ s.trace
  rest : ¬Released s'.trace e → 1 < s.nblock e ∧ s'.nblock e + 1 = s.nblock e ∧
    (m.dirtyOut e = false → s'.nblock e ≤ s'.nprune e) ∧
    (m.flagDirty e = false → s'.nprune e = s'.nblock e)

theorem Counted.turn {e owed' : ℕ} {todo' : List ℕ} {s' : Sched}
    (h : Counted g m todo (e :: pend) owed s) (hw : m.work e = true) (ht : Turn g m e s s')
    (hwaits : ∀ n, Waits g m todo' s'.trace n ↔ Waits g m todo s.trace n)
    (hres : ∀ e', Resolved s'.trace e' → Resolved s.trace e' ∨ e' = e ∧ Released s'.trace e)
    (honce : ∀ e', s'.trace.count (.queue e') + s'.trace.count (.prune e') ≤ 1)
    (hcalls : ∀ n ∈ todo', ∃ e', g.gen n = some e' ∧ Resolved s'.trace e') (hdistinct : todo'.Nodup)
    (htotal : s'.ntotal = (unpruned g m s'.trace).card + owed') :
    Counted g m todo' pend owed' s' := by
  obtain ⟨hnot, hout⟩ := h.visited hw
  have hsame : ∀ e', outstanding g m todo' pend s'.trace e' =
      outstanding g m todo pend s.trace e' := fun e' => outstanding_congr fun n _ => hwaits n
  have hother : ∀ e', e' ≠ e → outstanding g m todo (e :: pend) s.trace e' =
      outstanding g m todo' pend s'.trace e' := by
    intro e' hne
    rw [hsame, outstanding_cons, if_neg hne.symm, Nat.add_zero]
  have hactive := h.due e List.mem_cons_self hw
  refine ⟨?_, ?_, ?_, ?_, ?_, ?_, ?_, ?_, honce, hcalls, hdistinct, h.bound, ?_, htotal⟩
  case refine_1 =>
    intro e' hw' hr
    by_cases hne : e' = e
    · subst hne
      have hlast := ht.last hr
      rw [hsame]
      omega
    · rw [← hother e' hne]
      exact h.released e' hw' ((ht.released e' hne).mp hr)
  case refine_2 =>
    intro e' hw' hr
    by_cases hne : e' = e
    · subst hne
      have hrest := ht.rest hr
      rw [hsame]
      omega
    · rw [← hother e' hne, ht.nblock e' hne]
      exact h.waiting e' hw' (mt (ht.released e' hne).mpr hr)
  case refine_3 =>
    intro e' hw' hr hd
    by_cases hne : e' = e
    · subst hne
      exact (ht.rest hr).2.2.1 hd
    · rw [ht.nblock e' hne, ht.nprune e' hne]
      exact h.prunable e' hw' (mt (ht.released e' hne).mpr hr) hd
  case refine_4 =>
    intro e' hw' hr hd
    by_cases hne : e' = e
    · subst hne
      exact (ht.rest hr).2.2.2 hd
    · rw [ht.nblock e' hne, ht.nprune e' hne]
      exact h.clean e' hw' (mt (ht.released e' hne).mpr hr) hd
  case refine_5 =>
    intro e' ha hr
    by_cases hne : e' = e
    · subst hne
      have hrest := ht.rest hr
      omega
    · rw [ht.nblock e' hne]
      exact h.blocked e' ha (mt (ht.released e' hne).mpr hr)
  case refine_6 =>
    intro e' hr
    by_cases hne : e' = e
    · exact hne ▸ hactive
    · exact h.active e' ((ht.released e' hne).mp hr)
  case refine_7 =>
    intro e' hq
    by_cases hne : e' = e
    · subst hne
      exact ht.queued hq
    · exact h.dirty e' (ht.others e' hne hq)
  case refine_8 =>
    intro e' hr
    by_cases hne : e' = e
    · subst hne
      rcases hres e' hr with hold | hnew
      · exact absurd (h.resolved e' hold) hnot
      · exact hnew.2
    · rcases hres e' hr with hold | hnew
      · exact (ht.released e' hne).mpr (h.resolved e' hold)
      · exact absurd hnew.1 hne
  case refine_9 => exact fun e' he' => h.due e' (List.mem_cons_of_mem _ he')

theorem waits_queue {e n : ℕ} : Waits g m todo (.queue e :: t) n ↔ Waits g m todo t n := by
  simp [Waits, resolved_cons]

/-- An edge is released once. -/
theorem Counted.once_cons {a : Action} {e : ℕ} (h : Counted g m todo pend owed s)
    (hnot : ¬Released s.trace e) (ha : a = .queue e ∨ a = .prune e) (e' : ℕ) :
    (a :: s.trace).count (.queue e') + (a :: s.trace).count (.prune e') ≤ 1 := by
  rw [List.count_cons, List.count_cons]
  by_cases hne : e' = e
  · subst hne
    have hcount := count_released hnot
    rcases ha with rfl | rfl <;> simp <;> omega
  · rcases ha with rfl | rfl <;> simpa [Ne.symm hne] using h.once e'

theorem Counted.calls_cons (h : Counted g m todo pend owed s) (a : Action) :
    ∀ n ∈ todo, ∃ e, g.gen n = some e ∧ Resolved (a :: s.trace) e := by
  intro n hn
  obtain ⟨e, hgen, hr⟩ := h.calls n hn
  exact ⟨e, hgen, resolved_cons.mpr (.inr hr)⟩

/-- The last input of a dirty edge: it is queued. -/
theorem Counted.queue {e : ℕ} (h : Counted g m todo (e :: pend) owed s) (s₁ : Sched)
    (hw : m.work e = true) (hlast : s.nblock e = 1) (hdirty : m.flagDirty e = true)
    (hb : ∀ e', e' ≠ e → s₁.nblock e' = s.nblock e') (htr : s₁.trace = s.trace)
    (htotal : s₁.ntotal = s.ntotal) (hp : ∀ e', e' ≠ e → s₁.nprune e' = s.nprune e') :
    Counted g m todo pend owed (Build.queue g e s₁) := by
  obtain ⟨hnot, -⟩ := h.visited hw
  have htrace : (Build.queue g e s₁).trace = .queue e :: s.trace := by rw [queue_trace, htr]
  refine h.turn hw ⟨?_, ?_, ?_, fun _ => hlast, fun _ => hdirty, ?_, ?_⟩ ?_ ?_ ?_ ?_ h.distinct ?_
  case refine_1 =>
    rw [queue_nblock]
    exact hb
  case refine_2 =>
    rw [queue_nprune]
    exact hp
  case refine_3 =>
    intro e' hne
    rw [htrace, released_cons]
    simp [hne.symm]
  case refine_4 =>
    intro e' hne hq
    rw [htrace] at hq
    simpa [hne] using hq
  case refine_5 =>
    intro hr
    rw [htrace] at hr
    exact absurd (.inl List.mem_cons_self) hr
  case refine_6 =>
    intro n
    rw [htrace]
    exact waits_queue
  case refine_7 =>
    intro e' hr
    rw [htrace, resolved_cons] at hr
    exact .inl (by simpa using hr)
  case refine_8 =>
    rw [htrace]
    exact h.once_cons hnot (.inl rfl)
  case refine_9 =>
    rw [htrace]
    exact h.calls_cons _
  case refine_10 =>
    rw [queue_ntotal, htrace, unpruned_cons (by simp)]
    exact htotal.trans h.total

/-- Other inputs of the edge remain. -/
theorem Counted.less {e : ℕ} (h : Counted g m todo (e :: pend) owed s) (s₁ : Sched)
    (hw : m.work e = true) (hself : s₁.nblock e + 1 = s.nblock e) (hmore : s₁.nblock e ≠ 0)
    (hb : ∀ e', e' ≠ e → s₁.nblock e' = s.nblock e') (htr : s₁.trace = s.trace)
    (htotal : s₁.ntotal = s.ntotal) (hp : ∀ e', e' ≠ e → s₁.nprune e' = s.nprune e')
    (hle : m.dirtyOut e = false → s₁.nblock e ≤ s₁.nprune e)
    (heq : m.flagDirty e = false → s₁.nprune e = s₁.nblock e) :
    Counted g m todo pend owed s₁ := by
  obtain ⟨hnot, -⟩ := h.visited hw
  refine h.turn hw ⟨hb, hp, fun e' _ => by rw [htr], fun hr => absurd (htr ▸ hr) hnot,
    fun hq => h.dirty e (htr ▸ hq), fun e' _ hq => htr ▸ hq, ?_⟩ (fun n => by rw [htr])
    (fun e' hr => .inl (htr ▸ hr)) (fun e' => htr ▸ h.once e') (fun n hn => htr ▸ h.calls n hn)
    h.distinct ?_
  · exact fun _ => ⟨by omega, hself, hle, heq⟩
  · rw [htr]
    exact htotal.trans h.total

/-- An input less blocks the edge: it becomes ready when it was the last one. -/
theorem Counted.unblock {e : ℕ} (h : Counted g m todo (e :: pend) owed s) (s₁ : Sched)
    (hw : m.work e = true) (hb : s₁.nblock = s.nblock) (htr : s₁.trace = s.trace)
    (htotal : s₁.ntotal = s.ntotal) (hp : ∀ e', e' ≠ e → s₁.nprune e' = s.nprune e')
    (hle : m.dirtyOut e = false → s.nblock e ≤ s₁.nprune e + 1)
    (heq : m.flagDirty e = false → s₁.nprune e + 1 = s.nblock e ∧ s₁.nprune e ≠ 0) :
    ∃ s', Build.unblock g e s₁ = .ok s' ∧ Counted g m todo pend owed s' := by
  obtain ⟨k, hk⟩ : ∃ k, s.nblock e = k + 1 := ⟨_, (h.visited hw).2⟩
  set s₂ : Sched := { s₁ with nblock := update s.nblock e k }
  have hself : s₂.nblock e = k := Function.update_self ..
  have hother : ∀ e', e' ≠ e → s₂.nblock e' = s.nblock e' := fun e' hne =>
    Function.update_of_ne hne ..
  have hstep : Build.unblock g e s₁ = .ok (if k = 0 then Build.queue g e s₂ else s₂) := by
    rw [Build.unblock, hb, hk]
    rfl
  refine ⟨_, hstep, ?_⟩
  by_cases hzero : k = 0
  case pos =>
    have hdirty : m.flagDirty e = true := by
      by_contra hd
      have hclean := heq (Bool.eq_false_iff.mpr hd)
      omega
    rw [if_pos hzero]
    exact h.queue s₂ hw (by omega) hdirty hother htr htotal hp
  case neg =>
    rw [if_neg hzero]
    refine h.less s₂ hw (by omega) (by omega) hother htr htotal hp ?_ ?_
    · intro hd
      have hprune : s.nblock e ≤ s₂.nprune e + 1 := hle hd
      omega
    · intro hd
      have hprune : s₂.nprune e + 1 = s.nblock e := (heq hd).1
      omega

theorem resolved_prune {e e' : ℕ} (hne : e' ≠ e) :
    Resolved (.prune e :: t) e' ↔ Resolved t e' := by
  rw [resolved_cons]
  simp [hne.symm]

theorem waits_prune (hg : g.Wf) {e : ℕ} (hnot : ¬Resolved t e) (n : ℕ) :
    Waits g m (g.outs e ++ todo) (.prune e :: t) n ↔ Waits g m todo t n := by
  unfold Waits
  refine exists_congr fun e' => and_congr_right fun hgen => and_congr_right fun _ => ?_
  rw [List.mem_append, hg.mem_outs, hgen]
  by_cases hne : e' = e
  · subst hne
    simp [hnot]
  · rw [resolved_prune hne]
    simp [hne]

theorem unpruned_prune {e : ℕ} : unpruned g m (.prune e :: t) = (unpruned g m t).erase e := by
  ext e'
  simp only [unpruned, Finset.mem_filter, Finset.mem_erase, List.mem_cons, not_or,
    Action.prune.injEq]
  tauto

/-- The last visit shows that the edge needs no command: `nodedone` follows for its outputs. -/
theorem Counted.prune (hg : g.Wf) {e : ℕ} (h : Counted g m todo (e :: pend) owed s)
    (hw : m.work e = true) (hd : m.dirtyOut e = false) (hone : s.nprune e = 1) (s₁ : Sched)
    (hb : s₁.nblock = s.nblock) (htr : s₁.trace = .prune e :: s.trace)
    (htotal : s₁.ntotal = s.ntotal) (hp : ∀ e', e' ≠ e → s₁.nprune e' = s.nprune e') :
    Counted g m (g.outs e ++ todo) pend (owed + if Marks.counts g m e then 1 else 0) s₁ := by
  obtain ⟨hnot, hout⟩ := h.visited hw
  have hle := h.prunable e hw hnot hd
  have hnotres : ¬Resolved s.trace e := mt (h.resolved e) hnot
  have hrel : Released s₁.trace e := htr ▸ .inr List.mem_cons_self
  refine h.turn hw ⟨?_, hp, ?_, ?_, ?_, ?_, ?_⟩ ?_ ?_ ?_ ?_ ?_ ?_
  case refine_1 => exact fun e' _ => by rw [hb]
  case refine_2 =>
    intro e' hne
    rw [htr, released_cons]
    simp [hne.symm]
  case refine_3 => exact fun _ => by omega
  case refine_4 =>
    intro hq
    rw [htr] at hq
    exact absurd (.inl (by simpa using hq)) hnot
  case refine_5 =>
    intro e' _ hq
    rw [htr] at hq
    simpa using hq
  case refine_6 => exact fun hr => absurd hrel hr
  case refine_7 =>
    rw [htr]
    exact waits_prune hg hnotres
  case refine_8 =>
    intro e' hr
    by_cases hne : e' = e
    · exact .inr ⟨hne, hrel⟩
    · rw [htr, resolved_prune hne] at hr
      exact .inl hr
  case refine_9 =>
    rw [htr]
    exact h.once_cons hnot (.inr rfl)
  case refine_10 =>
    intro n hn
    rw [htr]
    rcases List.mem_append.mp hn with hn | hn
    · exact ⟨e, (hg.mem_outs n e).mp hn, .inr (.inr List.mem_cons_self)⟩
    · exact h.calls_cons _ n hn
  case refine_11 =>
    refine List.nodup_append.mpr ⟨hg.nodup_outs e, h.distinct, ?_⟩
    rintro n hn n' hn' rfl
    obtain ⟨e', hgen, hr⟩ := h.calls n hn'
    rw [(hg.mem_outs n e).mp hn] at hgen
    cases hgen
    exact hnotres hr
  case refine_12 =>
    rw [htr, unpruned_prune, htotal, h.total]
    by_cases hc : Marks.counts g m e = true
    · have hmem : e ∈ unpruned g m s.trace := by
        rw [unpruned, Finset.mem_filter]
        exact ⟨Finset.mem_range.mpr (h.bound e hw), hc, fun hmem => hnot (.inr hmem)⟩
      have hpos := Finset.card_pos.mpr ⟨e, hmem⟩
      rw [Finset.card_erase_of_mem hmem, if_pos hc]
      omega
    · have hmem : e ∉ unpruned g m s.trace := by
        intro hmem
        exact hc (Finset.mem_filter.mp hmem).2.1
      rw [Finset.erase_eq_of_notMem hmem, if_neg hc, Nat.add_zero]

/-! ### `nodedone` -/

open scoped Classical in
/-- The edges that still wait for inputs. -/
noncomputable def unreleased (g : Graph) (t : List Action) : Finset ℕ :=
  (Finset.range g.edges).filter fun e => ¬Released t e

theorem unreleased_prune {e : ℕ} (hnot : ¬Released t e) (he : e < g.edges) :
    (unreleased g (.prune e :: t)).card < (unreleased g t).card := by
  classical
  apply Finset.card_lt_card
  rw [Finset.ssubset_iff_of_subset]
  · exact ⟨e, by simpa [unreleased] using ⟨he, hnot⟩, by simp [unreleased, Released]⟩
  · intro e'
    simp only [unreleased, Finset.mem_filter, released_cons]
    tauto

theorem unreleased_suffix {t' : List Action} (h : t <:+ t') :
    (unreleased g t').card ≤ (unreleased g t).card := by
  classical
  apply Finset.card_le_card
  intro e he
  rw [unreleased, Finset.mem_filter] at he ⊢
  exact ⟨he.1, fun hr => he.2 (hr.imp (h.mem ·) (h.mem ·))⟩

/-- The computation ends with the counters right. -/
def Ends (g : Graph) (m : Marks) (todo pend : List ℕ) (owed : ℕ) (s : Sched)
    (r : Except Halt Sched) : Prop :=
  ∃ s', r = .ok s' ∧ Counted g m todo pend owed s' ∧ s.trace <:+ s'.trace

theorem Ends.bind {pend' : List ℕ} {todo' : List ℕ} {owed' : ℕ} {s₀ : Sched}
    {r : Except Halt Sched} {f : Sched → Except Halt Sched} (hr : Ends g m todo pend owed s₀ r)
    (hf : ∀ s, Counted g m todo pend owed s → s₀.trace <:+ s.trace →
      Ends g m todo' pend' owed' s (f s)) : Ends g m todo' pend' owed' s₀ (r.bind f) := by
  obtain ⟨s₁, rfl, h₁, htr₁⟩ := hr
  obtain ⟨s₂, hs₂, h₂, htr₂⟩ := hf s₁ h₁ htr₁
  exact ⟨s₂, hs₂, h₂, htr₁.trans htr₂⟩

theorem unblock_trace {e : ℕ} {s s' : Sched} (h : unblock g e s = .ok s') : s.trace <:+ s'.trace := by
  rw [unblock] at h
  cases hk : s.nblock e with
  | zero =>
    rw [hk] at h
    cases h
  | succ k =>
    rw [hk] at h
    cases h
    split
    · rw [queue_trace]
      exact List.suffix_cons _ _
    · exact List.suffix_refl _

/-- The calls of `nodedone` for a list of nodes. -/
theorem calls_ends {fuel : ℕ} {prune : Bool}
    (ih : ∀ n todo pend owed s, Counted g m (n :: todo) pend owed s →
      (unreleased g s.trace).card < fuel →
      Ends g m todo pend owed s (nodedone g m fuel n prune s))
    (ns : List ℕ) (h : Counted g m (ns ++ todo) pend owed s)
    (hfuel : (unreleased g s.trace).card < fuel) :
    Ends g m todo pend owed s (each (fun n => nodedone g m fuel n prune) ns s) := by
  induction ns generalizing s with
  | nil => exact ⟨s, rfl, h, List.suffix_refl _⟩
  | cons n ns ihn =>
    refine (ih n _ _ _ s h hfuel).bind ?_
    intro s₁ h₁ htr₁
    exact ihn h₁ ((unreleased_suffix htr₁).trans_lt hfuel)

/-- The decrement of `ntotal` for an edge that has been pruned. -/
theorem Counted.pay {e : ℕ} (hw : m.work e = true)
    (h : Counted g m todo pend (owed + if Marks.counts g m e then 1 else 0) s) :
    ∃ s', (if m.flagDirty e && !g.phony e then
      (decrement s.ntotal).bind fun k => .ok { s with ntotal := k } else .ok s) = .ok s' ∧
      Counted g m todo pend owed s' ∧ s'.trace = s.trace := by
  have hcounts : Marks.counts g m e = (m.flagDirty e && !g.phony e) := by
    rw [Marks.counts, hw, Bool.true_and]
  have htotal := h.total
  rw [← hcounts]
  by_cases hc : Marks.counts g m e = true
  case pos =>
    rw [if_pos hc] at htotal ⊢
    rw [htotal, ← Nat.add_assoc, decrement]
    exact ⟨_, rfl, { h with total := rfl }, rfl⟩
  case neg =>
    rw [if_neg hc] at h ⊢
    exact ⟨s, rfl, h, rfl⟩

/-- The last visit of an edge that needs no command: `nodedone` is called for its outputs. -/
theorem pruned_ends (hg : g.Wf) {fuel e : ℕ}
    (ih : ∀ n todo pend owed s, Counted g m (n :: todo) pend owed s →
      (unreleased g s.trace).card < fuel →
      Ends g m todo pend owed s (nodedone g m fuel n true s))
    (h : Counted g m todo (e :: pend) owed s) (hfuel : (unreleased g s.trace).card < fuel + 1)
    (hw : m.work e = true) (hd : m.dirtyOut e = false) (hone : s.nprune e = 1) :
    Ends g m todo pend owed s (pruned g m (nodedone g m fuel) e
      { s with nprune := update s.nprune e 0 }) := by
  have hprune := h.prune hg hw hd hone
    (Sched.act (.prune e) { s with nprune := update s.nprune e 0 }) rfl rfl rfl
    fun e' hne => Function.update_of_ne hne _ _
  have hless := unreleased_prune (h.visited hw).1 (h.bound e hw)
  have hcalls := calls_ends ih (g.outs e) hprune (hless.trans_le (Nat.lt_succ_iff.mp hfuel))
  obtain ⟨s₂, hs₂, h₂, htr₂⟩ := hcalls
  obtain ⟨s₃, hs₃, h₃, htr₃⟩ := h₂.pay hw
  refine ⟨s₃, ?_, h₃, ?_⟩
  · rw [pruned, hs₂]
    exact hs₃
  · rw [htr₃]
    exact (List.suffix_cons _ _).trans htr₂

theorem visit_ends (hg : g.Wf) {fuel e : ℕ} {prune : Bool}
    (ih : ∀ n todo pend owed s, Counted g m (n :: todo) pend owed s →
      (unreleased g s.trace).card < fuel →
      Ends g m todo pend owed s (nodedone g m fuel n true s))
    (h : Counted g m todo (e :: pend) owed s) (hfuel : (unreleased g s.trace).card < fuel + 1) :
    Ends g m todo pend owed s (visit g m (nodedone g m fuel) prune e s) := by
  unfold visit
  cases hw : m.work e with
  | false =>
    rw [if_pos (by decide)]
    exact ⟨s, rfl, h.pass hw, List.suffix_refl _⟩
  | true =>
    rw [if_neg (by decide)]
    obtain ⟨hnot, hout⟩ := h.visited hw
    by_cases hflag : (if prune then m.dirtyOut e else m.flagDirty e) = true
    case pos =>
      have hdirty : m.flagDirty e = true := by
        cases prune with
        | true =>
          rw [if_pos rfl] at hflag
          rw [Marks.flagDirty, hflag, Bool.or_true]
        | false => exact hflag
      rw [if_neg (by simpa using hflag)]
      obtain ⟨s', hs', h'⟩ := h.unblock s hw rfl rfl rfl (fun _ _ => rfl)
        (fun hd => (h.prunable e hw hnot hd).trans (Nat.le_succ _))
        (fun hd => absurd hdirty (by simp [hd]))
      exact ⟨s', hs', h', unblock_trace hs'⟩
    case neg =>
      rw [if_pos (by simpa using hflag)]
      have hd : m.dirtyOut e = false := by
        cases prune with
        | true => simpa using hflag
        | false => exact (Bool.or_eq_false_iff.mp (Bool.eq_false_iff.mpr hflag)).2
      have hle := h.prunable e hw hnot hd
      obtain ⟨k, hk⟩ : ∃ k, s.nprune e = k + 1 := ⟨s.nprune e - 1, by omega⟩
      rw [hk]
      by_cases hzero : k = 0
      case pos =>
        subst hzero
        exact pruned_ends hg ih h hfuel hw hd hk
      case neg =>
        have hle' : m.dirtyOut e = false → s.nblock e ≤ update s.nprune e k e + 1 := by
          intro _
          rw [Function.update_self]
          omega
        have heq : m.flagDirty e = false →
            update s.nprune e k e + 1 = s.nblock e ∧ update s.nprune e k e ≠ 0 := by
          intro hclean
          have hsame := h.clean e hw hnot hclean
          rw [Function.update_self]
          omega
        obtain ⟨s', hs', h'⟩ := h.unblock { s with nprune := update s.nprune e k } hw rfl rfl rfl
          (fun e' hne => Function.update_of_ne hne _ _) hle' heq
        have htr := unblock_trace hs'
        exact ⟨s', (if_neg hzero).trans hs', h', htr⟩

/-- `nodedone` ends, for a node whose edge is done. -/
theorem nodedone_ends (hg : g.Wf) (fuel n : ℕ) (prune : Bool) (todo pend : List ℕ) (owed : ℕ)
    (s : Sched) (h : Counted g m (n :: todo) pend owed s)
    (hfuel : (unreleased g s.trace).card < fuel) :
    Ends g m todo pend owed s (nodedone g m fuel n prune s) := by
  induction fuel generalizing n prune todo pend owed s with
  | zero => cases hfuel
  | succ fuel ih =>
    have hloop : ∀ us s, Counted g m todo (us ++ pend) owed s →
        (unreleased g s.trace).card < fuel + 1 →
        Ends g m todo pend owed s (each (visit g m (nodedone g m fuel) prune) us s) := by
      intro us
      induction us with
      | nil => exact fun s h _ => ⟨s, rfl, h, List.suffix_refl _⟩
      | cons e us ihu =>
        intro s h hfuel
        refine (visit_ends hg (fun n => ih n true) h hfuel).bind ?_
        intro s₁ h₁ htr₁
        exact ihu s₁ h₁ ((unreleased_suffix htr₁).trans_lt hfuel)
    exact hloop (g.use n) s (h.call hg) hfuel

end Bootsh.Samu.Build
