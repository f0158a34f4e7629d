import Bootsh.Samu.BuildAdd

/-!
From the targets to the end of `build`: what `buildadd` gives is what the scheduler needs.
-/
namespace Bootsh.Samu.Build

open Function (update)
open Fallible (each bind_eq_ok Gives)

variable {w : Records} {o : Options} {p q : Plan} {b : State} {e n : ℕ}

/-- Nothing has been added. -/
structure Fresh (p : Plan) : Prop where
  wf : p.graph.Wf
  idle : ∀ e, p.marks.work e = false
  cycle : ∀ e, p.marks.cycle e = false
  clean : ∀ e, p.marks.flagDirty e = false
  work : p.sched.work = []
  poolwork : ∀ k, p.sched.poolwork k = []
  numjobs : ∀ k, p.sched.numjobs k = 0
  ntotal : p.sched.ntotal = 0
  trace : p.sched.trace = []

/-- The calls of `buildadd` for the targets. -/
def addtargets (w : Records) (targets : List ℕ) (p : Plan) : Except Halt Plan :=
  each (buildadd w (p.graph.edges + 2)) targets p

/-- How `build` begins. -/
def State.begin (o : Options) (overload : Bool) (p : Plan) : State where
  plan := p
  nstarted := 0
  nfinished := 0
  running := []
  numfail := 0
  maxjobs := if overload then 1 else o.maxjobs
  polling := false

/-! ### Planning -/

theorem Fresh.planning (h : Fresh p) : Planning w p := by
  have hnot : ∀ e, ¬p.Done e := by
    intro e hd
    cases (h.idle e).symm.trans hd.1
  have hpooled : ∀ e, p.sched.pooled p.graph e = [] := by
    intro e
    rw [Sched.pooled]
    cases p.graph.limit e with
    | none => rfl
    | some k => exact h.poolwork k
  refine ⟨h.wf, ?_, ?_, fun e _ => h.clean e, ?_, ?_, ?_, ⟨∅, h.ntotal, ?_⟩, ⟨?_, ?_, ?_⟩,
    ⟨?_, ?_, ?_⟩, fun e hd => absurd hd (hnot e)⟩
  case refine_1 =>
    intro e he
    cases (h.idle e).symm.trans he
  case refine_2 =>
    intro e he
    cases (h.cycle e).symm.trans he
  case refine_3 => simp [h.trace]
  case refine_4 => simp [h.trace]
  case refine_5 => simp [h.trace]
  case refine_6 => simp [hnot]
  case refine_7 => simp [h.trace, h.work, hpooled]
  case refine_8 => simp [h.trace]
  case refine_9 => simp [h.poolwork]
  case refine_10 => simp [h.trace, h.work, h.numjobs]
  case refine_11 => simp [h.poolwork]
  case refine_12 =>
    intro k hk
    rwa [h.numjobs]

/-- What the calls for the targets give. -/
structure Planned (w : Records) (p q : Plan) : Prop where
  planning : Planning w q
  cycle : ∀ e, q.marks.cycle e = false
  maxjobs : q.graph.maxjobs = p.graph.maxjobs

theorem addtargets_settled (hw : w.Plain) (h : Fresh p) (targets : List ℕ) :
    Gives Refused (fun q => Planned w p q ∧ ∀ n ∈ targets, Settled w q n)
      (addtargets w targets p) := by
  have hcard : p.pending.card ≤ p.graph.edges := by
    classical
    exact (Finset.card_filter_le _ _).trans (Finset.card_range _).le
  have hrun : ∀ q, Planned w p q → q.pending.card ≤ p.graph.edges →
      Gives Refused (fun q' => Planned w p q' ∧ Keeps w (fun _ => True) q q' ∧
        ∀ n ∈ targets, Settled w q' n) (each (buildadd w (p.graph.edges + 2)) targets q) := by
    induction targets with
    | nil => exact fun q hq _ => ⟨hq, .refl q, by simp⟩
    | cons n targets ih =>
      intro q hq hle
      refine (buildadd_built hw _ hq.planning (Nat.add_le_add_right hle 2) n).bind ?_
      intro q₁ hb
      have hplanned : Planned w p q₁ := by
        refine ⟨hb.planning, ?_, hb.maxjobs.trans hq.maxjobs⟩
        rw [hb.cycle]
        exact hq.cycle
      have hcard' : q₁.pending.card ≤ p.graph.edges := by
        refine (Finset.card_le_card ?_).trans hle
        exact fun k hk => mem_pending.mpr (hb.pending k (mem_pending.mp hk))
      refine (ih q₁ hplanned hcard').mono fun q' hq' => ?_
      refine ⟨hq'.1, hb.keeps.trans hq'.2.1 fun _ _ _ => ⟨trivial, trivial⟩, ?_⟩
      exact List.forall_mem_cons.mpr
        ⟨hq'.2.1.settled (fun _ _ => trivial) hb.ready.settled, hq'.2.2⟩
  exact (hrun p ⟨h.planning, h.cycle, rfl⟩ hcard).mono fun q hq => ⟨hq.1, hq.2.2⟩

theorem addtargets_planned (hw : w.Plain) (h : Fresh p) (targets : List ℕ) :
    Gives Refused (Planned w p) (addtargets w targets p) :=
  (addtargets_settled hw h targets).mono fun _ hq => hq.1

namespace Planned

theorem done (h : Planned w p q) (hw : q.marks.work e = true) : q.Done e := ⟨hw, h.cycle e⟩

theorem blocking_iff (h : Planned w p q) : blocking q n = true ↔ ∃ e, q.graph.gen n = some e ∧
    q.marks.work e = true ∧ (q.marks.flagDirty e = true ∨ 0 < q.sched.nblock e) := by
  rw [blocking, Option.any_eq_true]
  simp [h.cycle]

/-- The edges that are to be built are those that are dirty or blocked. -/
theorem active_iff (h : Planned w p q) : Active q.graph q.marks e ↔
    q.marks.work e = true ∧ (q.marks.flagDirty e = true ∨ 0 < q.sched.nblock e) := by
  constructor
  case mp =>
    intro he
    induction he with
    | dirty hw hd => exact ⟨hw, .inl hd⟩
    | input hw hn hgen _ ih =>
      refine ⟨hw, .inr ?_⟩
      rw [(h.planning.ok _ (h.done hw)).nblock, List.countP_pos_iff]
      exact ⟨_, hn, h.blocking_iff.mpr ⟨_, hgen, ih⟩⟩
  case mpr =>
    rintro ⟨hw, hor⟩
    have hok := h.planning.ok e (h.done hw)
    have hacc := hok.acyclic
    induction hacc with
    | intro e _ ih =>
      rcases hor with hd | hpos
      · exact .dirty hw hd
      · rw [hok.nblock, List.countP_pos_iff] at hpos
        obtain ⟨n, hn, hblock⟩ := hpos
        obtain ⟨e', hgen, hw', hor'⟩ := h.blocking_iff.mp hblock
        exact .input hw hn hgen
          (ih e' ⟨n, hn, hgen⟩ hw' hor' (h.planning.ok e' (h.done hw')))

theorem not_resolved (h : Planned w p q) : ¬Resolved q.sched.trace e := by
  rintro (hr | hr | hr) <;>
  · obtain ⟨k, hk⟩ := h.planning.trace _ hr
    cases hk

theorem released_iff (h : Planned w p q) : Released q.sched.trace e ↔
    q.marks.work e = true ∧ q.marks.flagDirty e = true ∧ q.sched.nblock e = 0 := by
  have hno : .prune e ∉ q.sched.trace := fun hr => h.not_resolved (.inr (.inr hr))
  rw [Released, or_iff_left hno]
  constructor
  case mp =>
    intro hq
    have hd := h.planning.queued e hq
    exact ⟨hd.1, (h.planning.ok e hd).queued.mp hq⟩
  case mpr =>
    rintro ⟨hw, hor⟩
    exact (h.planning.ok e (h.done hw)).queued.mpr hor

theorem outstanding_eq (h : Planned w p q) (hw : q.marks.work e = true) :
    outstanding q.graph q.marks [] [] q.sched.trace e = q.sched.nblock e := by
  classical
  unfold outstanding
  rw [List.count_nil, Nat.zero_add, (h.planning.ok e (h.done hw)).nblock]
  refine List.countP_congr fun n _ => ?_
  rw [decide_eq_true_eq, h.blocking_iff]
  refine exists_congr fun e' => and_congr_right fun _ => ?_
  rw [h.active_iff]
  simp [h.not_resolved]

theorem counted (h : Planned w p q) : q.Counted [] := by
  refine ⟨?_, ?_, ?_, ?_, ?_, ?_, ?_, ?_, ?_, by simp, .nil, h.planning.bound, by simp, ?_⟩
  case refine_1 =>
    intro e hw hr
    rw [h.outstanding_eq hw]
    exact (h.released_iff.mp hr).2.2
  case refine_2 => exact fun e hw _ => (h.outstanding_eq hw).symm
  case refine_3 =>
    exact fun e hw _ hout => ((h.planning.ok e (h.done hw)).nprune hout).ge
  case refine_4 =>
    intro e hw _ hd
    exact (h.planning.ok e (h.done hw)).nprune (Bool.or_eq_false_iff.mp hd).2
  case refine_5 =>
    intro e hact hnot
    obtain ⟨hw, hor⟩ := h.active_iff.mp hact
    rcases hor with hd | hpos
    · rw [h.released_iff] at hnot
      exact Nat.pos_of_ne_zero fun hzero => hnot ⟨hw, hd, hzero⟩
    · exact hpos
  case refine_6 =>
    intro e hr
    obtain ⟨hw, hd, -⟩ := h.released_iff.mp hr
    exact .dirty hw hd
  case refine_7 => exact fun e hq => (h.released_iff.mp (.inl hq)).2.1
  case refine_8 => exact fun e hr => absurd hr h.not_resolved
  case refine_9 =>
    intro e
    have hno : q.sched.trace.count (.prune e) = 0 :=
      List.count_eq_zero.mpr fun hr => h.not_resolved (.inr (.inr hr))
    rw [hno]
    exact h.planning.once e
  case refine_10 =>
    obtain ⟨l, hl, hmem⟩ := h.planning.total
    have heq : unpruned q.graph q.marks q.sched.trace = l := by
      ext k
      have hno : .prune k ∉ q.sched.trace := fun hr => h.not_resolved (.inr (.inr hr))
      rw [hmem, unpruned, Finset.mem_filter, Finset.mem_range, Marks.counts]
      simp only [hno, not_false_eq_true, and_true, Bool.and_eq_true, Bool.not_eq_true']
      constructor
      · rintro ⟨-, ⟨hw, hd⟩, hph⟩
        exact ⟨h.done hw, hd, hph⟩
      · rintro ⟨hdone, hd, hph⟩
        exact ⟨h.planning.bound k hdone.1, ⟨hdone.1, hd⟩, hph⟩
    rw [heq, hl, Nat.add_zero]

/-- What holds when `build` begins. -/
theorem good (h : Planned w p q) (overload : Bool) : Good o (State.begin o overload q) := by
  have hqueue : ∀ (f : Action → Bool), (∀ e, f (.queue e) = false) →
      0 = q.sched.trace.countP f := by
    intro f hf
    symm
    rw [List.countP_eq_zero]
    intro a ha
    obtain ⟨k, rfl⟩ := h.planning.trace a ha
    simp [hf]
  refine ⟨h.planning.wf, h.counted, h.planning.located, h.planning.pooled, ?_, ?_,
    hqueue _ fun _ => rfl, hqueue _ fun _ => rfl, le_rfl, Nat.zero_le _, ?_⟩
  case refine_1 =>
    intro t₁ t₂ e a heq ha
    have hin : a ∈ q.sched.trace := by
      change q.sched.trace = _ at heq
      simp [heq]
    obtain ⟨k, rfl⟩ := h.planning.trace a hin
    simp at ha
  case refine_2 =>
    intro a ha
    obtain ⟨k, rfl⟩ := h.planning.trace a ha
    trivial
  case refine_3 =>
    cases overload with
    | true => exact .inl rfl
    | false => exact .inr rfl

end Planned

end Bootsh.Samu.Build
