import Bootsh.Samu.BuildRun

/-!
Loading dependencies keeps the graph right, and gives edges to nodes that had none.
-/
namespace Bootsh.Samu.Build

open Function (update)
open Fallible (each bind_eq_ok)

/-! ### Loading dependencies -/

section

variable {g : Graph} {n e : ℕ} {deps : List ℕ}

theorem gen_mkphony {k : ℕ} : (g.mkphony n).gen k = if k = n then some g.edges else g.gen k :=
  Function.update_apply ..

/-- What loading dependencies for `e` keeps: everything but the uses, and the edges of nodes that
had none. -/
structure Extends (g g' : Graph) : Prop where
  gen : ∀ n k, g.gen n = some k → g'.gen n = some k
  fresh : ∀ n k, g.gen n = none → g'.gen n = some k →
    g.edges ≤ k ∧ g'.phony k = true ∧ g'.ins k = [] ∧ g'.outs k = [n]
  outs : ∀ k, k < g.edges → g'.outs k = g.outs k
  phony : ∀ k, k < g.edges → g'.phony k = g.phony k
  limit : g'.limit = g.limit
  maxjobs : g'.maxjobs = g.maxjobs
  generator : g'.generator = g.generator
  restat : g'.restat = g.restat
  edges : g.edges ≤ g'.edges
  added : ∀ k, g.edges ≤ k → k < g'.edges → g'.phony k = true ∧ g'.ins k = []

/-- The graph in the loop of `edgeadddeps`: the uses of the nodes before the last ones are added,
the inputs are not. -/
structure Adding (g : Graph) (e : ℕ) (deps : List ℕ) (g' : Graph) : Prop where
  extend : Extends g g'
  ins : g'.ins = g.ins
  inorderidx : ∀ k, k < g.edges → g'.inorderidx k = g.inorderidx k
  count_use : ∀ n k, (g'.use n).count k = (g.ins k).count n + if k = e then deps.count n else 0
  mem_outs : ∀ n k, n ∈ g'.outs k ↔ g'.gen n = some k
  nodup_outs : ∀ k, (g'.outs k).Nodup
  lt_edges : ∀ n k, g'.gen n = some k → k < g'.edges
  ins_nil : ∀ k, g'.edges ≤ k → g'.ins k = []
  limit_none : ∀ k, g'.edges ≤ k → g'.limit k = none

theorem Extends.refl (g : Graph) : Extends g g := by
  refine ⟨fun _ _ h => h, ?_, fun _ _ => rfl, fun _ _ => rfl, rfl, rfl, rfl, rfl, le_rfl, ?_⟩
  · intro n k hnone hsome
    rw [hnone] at hsome
    cases hsome
  · exact fun k hge hlt => absurd hlt (Nat.not_lt.mpr hge)

theorem Graph.Wf.adding (hg : g.Wf) : Adding g e [] g := by
  refine ⟨.refl g, rfl, fun _ _ => rfl, ?_, hg.mem_outs, hg.nodup_outs, hg.lt_edges,
    hg.ins_nil, hg.limit_none⟩
  intro n k
  rw [hg.count_use, List.count_nil, ite_self, Nat.add_zero]

theorem limit_mkphony (h : ∀ k, g.edges ≤ k → g.limit k = none) :
    (g.mkphony n).limit = g.limit := by
  funext k
  by_cases hk : k = g.edges
  · subst hk
    rw [h _ le_rfl, Graph.limit, Graph.mkphony]
    simp
  · simp only [Graph.limit, Graph.mkphony, Function.update_of_ne hk]

theorem Extends.mkphony {g' : Graph} (h : Extends g g') (hn : g'.gen n = none)
    (hlt : ∀ m k, g'.gen m = some k → k < g'.edges) (hlimit : ∀ k, g'.edges ≤ k → g'.limit k = none) :
    Extends g (g'.mkphony n) := by
  have hold : ∀ k, k < g.edges → k ≠ g'.edges := fun k hk => (hk.trans_le h.edges).ne
  refine ⟨?_, ?_, fun k hk => (Function.update_of_ne (hold k hk) ..).trans (h.outs k hk),
    fun k hk => (Function.update_of_ne (hold k hk) ..).trans (h.phony k hk),
    (limit_mkphony hlimit).trans h.limit, h.maxjobs, h.generator, h.restat,
    h.edges.trans (Nat.le_succ _), ?_⟩
  case refine_1 =>
    intro m k hm
    have hm' := h.gen m k hm
    rw [gen_mkphony, if_neg]
    · exact hm'
    · rintro rfl
      rw [hn] at hm'
      cases hm'
  case refine_2 =>
    intro m k hm hk
    rw [gen_mkphony] at hk
    by_cases hmn : m = n
    · subst hmn
      rw [if_pos rfl] at hk
      cases hk
      refine ⟨h.edges, ?_, ?_, ?_⟩ <;> exact Function.update_self ..
    · rw [if_neg hmn] at hk
      obtain ⟨hge, hph, hins, houts⟩ := h.fresh m k hm hk
      have hne := (hlt m k hk).ne
      refine ⟨hge, ?_, ?_, ?_⟩
      · exact (Function.update_of_ne hne ..).trans hph
      · exact (Function.update_of_ne hne ..).trans hins
      · exact (Function.update_of_ne hne ..).trans houts
  case refine_3 =>
    intro k hge hk
    by_cases hne : k = g'.edges
    · subst hne
      constructor <;> exact Function.update_self ..
    · have hadded := h.added k hge (lt_of_le_of_ne (Nat.le_of_lt_succ hk) hne)
      exact ⟨(Function.update_of_ne hne ..).trans hadded.1,
        (Function.update_of_ne hne ..).trans hadded.2⟩

theorem outs_mkphony (k : ℕ) :
    (g.mkphony n).outs k = if k = g.edges then [n] else g.outs k := Function.update_apply ..

theorem mem_outs_mkphony (hmem : ∀ m k, m ∈ g.outs k ↔ g.gen m = some k)
    (hlt : ∀ m k, g.gen m = some k → k < g.edges) (hn : g.gen n = none) (m k : ℕ) :
    m ∈ (g.mkphony n).outs k ↔ (g.mkphony n).gen m = some k := by
  rw [gen_mkphony, outs_mkphony]
  by_cases hk : k = g.edges
  · subst hk
    rw [if_pos rfl, List.mem_singleton]
    by_cases hmn : m = n
    · simp [hmn]
    · have hfree : g.gen m ≠ some g.edges := fun hm => absurd (hlt m _ hm) (lt_irrefl _)
      simp [hmn, hfree]
  · rw [if_neg hk, hmem]
    by_cases hmn : m = n
    · subst hmn
      rw [hn, if_pos rfl]
      simp [Ne.symm hk]
    · rw [if_neg hmn]

/-- The edge for a node that no edge makes. -/
theorem Adding.mkphony {g' : Graph} (h : Adding g e deps g') (hn : g'.gen n = none) :
    Adding g e deps (g'.mkphony n) := by
  refine ⟨h.extend.mkphony hn h.lt_edges h.limit_none, ?_, ?_, h.count_use,
    mem_outs_mkphony h.mem_outs h.lt_edges hn, ?_, ?_, ?_, ?_⟩
  case refine_1 =>
    rw [← h.ins]
    funext k
    by_cases hk : k = g'.edges
    · subst hk
      exact (Function.update_self ..).trans (h.ins_nil _ le_rfl).symm
    · exact Function.update_of_ne hk ..
  case refine_2 =>
    intro k hk
    have hne : k ≠ g'.edges := (hk.trans_le h.extend.edges).ne
    exact (Function.update_of_ne hne ..).trans (h.inorderidx k hk)
  case refine_3 =>
    intro k
    rw [outs_mkphony]
    split
    · exact List.nodup_singleton n
    · exact h.nodup_outs k
  case refine_4 =>
    intro m k hk
    rw [gen_mkphony] at hk
    split at hk
    · cases hk
      exact Nat.lt_succ_self _
    · exact (h.lt_edges m k hk).trans (Nat.lt_succ_self _)
  case refine_5 =>
    intro k hk
    have hne : k ≠ g'.edges := (Nat.lt_of_succ_le hk).ne'
    exact (Function.update_of_ne hne ..).trans (h.ins_nil k (Nat.le_of_succ_le hk))
  case refine_6 =>
    intro k hk
    rw [limit_mkphony h.limit_none]
    exact h.limit_none k (Nat.le_of_succ_le hk)

theorem Adding.adddep {g' : Graph} (h : Adding g e deps g') :
    Adding g e (deps ++ [n]) (g'.adddep e n) := by
  have hphony : Adding g e deps (if g'.gen n = none then g'.mkphony n else g') := by
    split
    case isTrue hn => exact h.mkphony hn
    case isFalse => exact h
  have hext := hphony.extend
  refine ⟨⟨hext.gen, hext.fresh, hext.outs, hext.phony, hext.limit, hext.maxjobs, hext.generator,
    hext.restat, hext.edges, hext.added⟩, hphony.ins, hphony.inorderidx, ?_, hphony.mem_outs,
    hphony.nodup_outs, hphony.lt_edges, hphony.ins_nil, hphony.limit_none⟩
  intro m k
  have hcount := hphony.count_use m k
  unfold Graph.adddep Graph.nodeuse
  generalize (if g'.gen n = none then g'.mkphony n else g') = g₁ at hcount
  dsimp only
  rw [List.count_append, List.count_singleton]
  by_cases hmn : m = n
  · subst hmn
    rw [Function.update_self, List.count_append, List.count_singleton, hcount]
    by_cases hk : k = e
    · subst hk
      simp
      omega
    · simp [hk, Ne.symm hk]
  · rw [Function.update_of_ne hmn, hcount]
    simp [Ne.symm hmn]

theorem adding_foldl {g' : Graph} (h : Adding g e deps g') (l : List ℕ) :
    Adding g e (deps ++ l) (l.foldl (Graph.adddep e) g') := by
  induction l generalizing deps g' with
  | nil => simpa using h
  | cons n l ih =>
    have hl := ih (h.adddep (n := n))
    rwa [List.append_assoc] at hl

/-- `edgeadddeps` keeps the graph right. -/
theorem Graph.Wf.edgeadddeps (hg : g.Wf) (he : e < g.edges) (deps : List ℕ) :
    (edgeadddeps e deps g).Wf ∧ Extends g (edgeadddeps e deps g) ∧
      (∀ k, k ≠ e → (edgeadddeps e deps g).ins k = g.ins k) ∧
      ∀ k, k ≠ e → k < g.edges → (edgeadddeps e deps g).inorderidx k = g.inorderidx k := by
  have h := adding_foldl hg.adding (e := e) deps
  rw [List.nil_append] at h
  unfold Build.edgeadddeps
  generalize deps.foldl (Graph.adddep e) g = g' at h
  have hext := h.extend
  have hins : ∀ k, k ≠ e →
      update g'.ins e ((g'.ins e).take (g'.inorderidx e) ++ deps ++
        (g'.ins e).drop (g'.inorderidx e)) k = g.ins k := by
    intro k hk
    rw [Function.update_of_ne hk, h.ins]
  refine ⟨⟨?_, h.mem_outs, h.nodup_outs, h.lt_edges, ?_, h.limit_none⟩, ⟨hext.gen, ?_, hext.outs,
    hext.phony, hext.limit, hext.maxjobs, hext.generator, hext.restat, hext.edges, ?_⟩, hins,
    fun k hk hlt => (Function.update_of_ne hk ..).trans (h.inorderidx k hlt)⟩
  case refine_1 =>
    intro n k
    dsimp only
    rw [h.count_use]
    by_cases hk : k = e
    · subst hk
      have hsplit := congrArg (List.count n)
        (List.take_append_drop (g'.inorderidx k) (g.ins k))
      rw [List.count_append] at hsplit
      rw [Function.update_self, h.ins, List.count_append, List.count_append, if_pos rfl]
      omega
    · rw [hins k hk, if_neg hk, Nat.add_zero]
  case refine_2 =>
    intro k hk
    have hne : k ≠ e := by
      rintro rfl
      exact absurd he (Nat.not_lt.mpr (hext.edges.trans hk))
    dsimp only
    rw [Function.update_of_ne hne]
    exact h.ins_nil k hk
  case refine_3 =>
    intro n k hn hk
    obtain ⟨hge, hph, hnil, houts⟩ := hext.fresh n k hn hk
    have hne : k ≠ e := by
      rintro rfl
      exact absurd he (Nat.not_lt.mpr hge)
    exact ⟨hge, hph, (Function.update_of_ne hne ..).trans hnil, houts⟩
  case refine_4 =>
    intro k hge hlt
    have hne : k ≠ e := by
      rintro rfl
      exact absurd he (Nat.not_lt.mpr hge)
    obtain ⟨hph, hnil⟩ := hext.added k hge hlt
    exact ⟨hph, (Function.update_of_ne hne ..).trans hnil⟩

end

end Bootsh.Samu.Build
