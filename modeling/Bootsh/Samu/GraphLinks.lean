import Bootsh.Samu.ParseEnds

/-!
The links of the graph that `parse` builds: an edge is among the uses of a node as often as the node
is among its inputs, and it makes the nodes that are its outputs.
-/
namespace Bootsh.Samu.Manifest

open Fallible (Yields)

namespace World

/-- The edges that use a node. -/
def use (w : World) (n : ℕ) : List ℕ := (w.nodes.getD n ⟨[], none, []⟩).use

structure Linked (w : World) : Prop where
  count_use : ∀ n e, (w.use n).count e = (w.edge e).ins.count n
  mem_outs : ∀ n e, n ∈ (w.edge e).outs ↔ w.gen n = some e
  nodup_outs : ∀ e, (w.edge e).outs.Nodup
  lt_edges : ∀ n e, w.gen n = some e → e < w.edges.length

/-- The links are right afterwards if they were before, and no edges and pools are added. -/
structure Links (w w' : World) : Prop where
  linked : w.Linked → w'.Linked
  edges : w'.edges.length = w.edges.length
  pools : w'.pools = w.pools

variable {w w' w'' : World} {n e : ℕ} {path : Text}

theorem Links.trans (h : Links w w') (h' : Links w' w'') : Links w w'' :=
  ⟨fun hw => h'.linked (h.linked hw), h'.edges.trans h.edges, h'.pools.trans h.pools⟩

/-- The same links. -/
theorem Linked.congr (h : w.Linked) (hgen : w'.gen = w.gen) (huse : w'.use = w.use)
    (houts : ∀ e, (w'.edge e).outs = (w.edge e).outs)
    (hins : ∀ e, (w'.edge e).ins = (w.edge e).ins)
    (hedges : w.edges.length ≤ w'.edges.length) : w'.Linked := by
  refine ⟨?_, ?_, ?_, ?_⟩
  · rw [huse]
    exact fun n e => hins e ▸ h.count_use n e
  · rw [hgen]
    exact fun n e => houts e ▸ h.mem_outs n e
  · exact fun e => houts e ▸ h.nodup_outs e
  · rw [hgen]
    exact fun n e hn => (h.lt_edges n e hn).trans_le hedges

theorem getD_modify {α : Type} {l : List α} {i : ℕ} (hi : i < l.length) (g : α → α) (d : α) (k : ℕ) :
    (l.modify i g).getD k d = if k = i then g (l.getD i d) else l.getD k d := by
  rw [List.getD_eq_getElem?_getD, List.getD_eq_getElem?_getD, List.getElem?_modify]
  by_cases hk : k = i
  · subst hk
    simp [hi]
  · simp [hk, Ne.symm hk]

theorem edge_setEdge {f : Edge → Edge} (he : e < w.edges.length) (k : ℕ) :
    (w.setEdge e f).edge k = if k = e then f (w.edge e) else w.edge k :=
  getD_modify he f _ k

theorem modify_gen (hn : n < w.nodes.length) (k : ℕ) :
    let w' := { w with nodes := w.nodes.modify n fun node => { node with gen := some e } }
    w'.gen k = (if k = n then some e else w.gen k) ∧ w'.use k = w.use k := by
  unfold gen use
  dsimp only
  rw [getD_modify hn]
  split
  case isTrue hk => exact ⟨rfl, by rw [hk]⟩
  case isFalse => exact ⟨rfl, rfl⟩

theorem modify_use (hn : n < w.nodes.length) (k : ℕ) :
    let w' := { w with nodes := w.nodes.modify n fun node => { node with use := node.use ++ [e] } }
    w'.gen k = w.gen k ∧ w'.use k = if k = n then w.use n ++ [e] else w.use k := by
  unfold gen use
  dsimp only
  rw [getD_modify hn]
  split
  case isTrue hk => exact ⟨by rw [hk], rfl⟩
  case isFalse => exact ⟨rfl, rfl⟩

/-- The links when an output is added, and an input. -/
theorem Linked.addout (h : w.Linked) (hn : w.gen n = none) (he : e < w.edges.length)
    (hgen : ∀ k, w'.gen k = if k = n then some e else w.gen k) (huse : ∀ k, w'.use k = w.use k)
    (hedge : ∀ k, w'.edge k =
      if k = e then { w.edge e with outs := (w.edge e).outs ++ [n] } else w.edge k)
    (hedges : w'.edges.length = w.edges.length) : w'.Linked := by
  refine ⟨?_, ?_, ?_, ?_⟩
  case refine_1 =>
    intro k d
    rw [huse, h.count_use, hedge]
    split
    case isTrue hd => rw [hd]
    case isFalse => rfl
  case refine_2 =>
    intro k d
    rw [hedge, hgen]
    by_cases hd : d = e
    · subst hd
      rw [if_pos rfl]
      by_cases hk : k = n
      · simp [hk]
      · simp [hk, h.mem_outs]
    · rw [if_neg hd, h.mem_outs]
      by_cases hk : k = n
      · simp [hk, hn, Ne.symm hd]
      · rw [if_neg hk]
  case refine_3 =>
    intro d
    rw [hedge]
    split
    case isFalse => exact h.nodup_outs d
    case isTrue =>
      have hnot : n ∉ (w.edge e).outs := by
        rw [h.mem_outs, hn]
        simp
      simpa [List.nodup_append, h.nodup_outs e] using fun a ha => ne_of_mem_of_not_mem ha hnot
  case refine_4 =>
    intro k d hk
    rw [hgen] at hk
    rw [hedges]
    split at hk
    · cases hk
      exact he
    · exact h.lt_edges k d hk

theorem Linked.addin (h : w.Linked) (hgen : ∀ k, w'.gen k = w.gen k)
    (huse : ∀ k, w'.use k = if k = n then w.use n ++ [e] else w.use k)
    (hedge : ∀ k, w'.edge k =
      if k = e then { w.edge e with ins := (w.edge e).ins ++ [n] } else w.edge k)
    (hedges : w'.edges.length = w.edges.length) : w'.Linked := by
  refine ⟨?_, ?_, ?_, ?_⟩
  case refine_1 =>
    intro k d
    have hcount := h.count_use k d
    rw [huse, hedge]
    by_cases hk : k = n
    · subst hk
      by_cases hd : d = e
      · subst hd
        simp [List.count_append, hcount]
      · simp [hd, List.count_append, hcount, Ne.symm hd]
    · rw [if_neg hk, hcount]
      by_cases hd : d = e
      · subst hd
        simp [List.count_append, Ne.symm hk]
      · rw [if_neg hd]
  case refine_2 =>
    intro k d
    rw [hgen, ← h.mem_outs, hedge]
    split
    case isTrue hd => rw [hd]
    case isFalse => rfl
  case refine_3 =>
    intro d
    rw [hedge]
    split
    · exact h.nodup_outs e
    · exact h.nodup_outs d
  case refine_4 =>
    intro k d hk
    rw [hedges]
    exact h.lt_edges k d ((hgen k).symm.trans hk)

/-- A new element that is like the default one. -/
theorem getD_snoc {α β : Type} (l : List α) {a d : α} (f : α → β) (h : f a = f d) (k : ℕ) :
    f ((l ++ [a]).getD k d) = f (l.getD k d) := by
  rw [List.getD_eq_getElem?_getD, List.getD_eq_getElem?_getD]
  rcases Nat.lt_trichotomy k l.length with hk | rfl | hk
  · rw [List.getElem?_append_left hk]
  · simpa using h
  · rw [List.getElem?_eq_none (by simp; omega), List.getElem?_eq_none hk.le]

/-- A node is found, or is new and has no links. -/
theorem mknode_spec (w : World) (path : Text) : (w.mknode path).2 < (w.mknode path).1.nodes.length ∧
    (w.mknode path).1.gen = w.gen ∧ (w.mknode path).1.use = w.use ∧
    (w.mknode path).1.edges = w.edges ∧ (w.mknode path).1.pools = w.pools := by
  unfold mknode
  cases hget : w.nodeget path with
  | some n =>
    refine ⟨?_, rfl, rfl, rfl, rfl⟩
    unfold nodeget at hget
    dsimp only at hget
    split at hget
    · cases hget
      assumption
    · cases hget
  | none =>
    refine ⟨?_, ?_, ?_, rfl, rfl⟩
    · simp
    · funext k
      exact getD_snoc w.nodes (a := ⟨path, none, []⟩) (d := ⟨[], none, []⟩) Node.gen rfl k
    · funext k
      exact getD_snoc w.nodes (a := ⟨path, none, []⟩) (d := ⟨[], none, []⟩) Node.use rfl k

/-- A new edge. -/
theorem Linked.mkedge {d : Edge} (h : w.Linked) (hnodes : w'.nodes = w.nodes)
    (hedges : w'.edges = w.edges ++ [d]) (houts : d.outs = []) (hins : d.ins = []) : w'.Linked := by
  refine h.congr ?_ ?_ ?_ ?_ (by simp [hedges])
  · funext k
    rw [gen, hnodes, gen]
  · funext k
    rw [use, hnodes, use]
  · intro k
    rw [edge, hedges]
    exact getD_snoc w.edges Edge.outs houts k
  · intro k
    rw [edge, hedges]
    exact getD_snoc w.edges Edge.ins hins k

theorem mknode_links (w : World) (path : Text) : Links w (w.mknode path).1 := by
  obtain ⟨-, hgen, huse, hedges, hpools⟩ := mknode_spec w path
  refine ⟨fun h => h.congr hgen huse ?_ ?_ (le_of_eq (by rw [hedges])), by rw [hedges], hpools⟩
  · exact fun e => by rw [edge, hedges, edge]
  · exact fun e => by rw [edge, hedges, edge]

theorem setEdge_links (e : ℕ) {f : Edge → Edge} (houts : ∀ d, (f d).outs = d.outs)
    (hins : ∀ d, (f d).ins = d.ins) : Links w (w.setEdge e f) := by
  refine ⟨fun h => ?_, List.length_modify .., rfl⟩
  by_cases he : e < w.edges.length
  · refine h.congr rfl rfl ?_ ?_ (List.length_modify ..).ge
    · intro k
      rw [edge_setEdge he]
      split
      case isTrue hk => rw [houts, hk]
      case isFalse => rfl
    · intro k
      rw [edge_setEdge he]
      split
      case isTrue hk => rw [hins, hk]
      case isFalse => rfl
  · have hsame : w.setEdge e f = w := by
      unfold setEdge
      rw [List.modify_eq_self (Nat.not_lt.mp he)]
    rwa [hsame]

theorem addout_links (dupbuildwarn : Bool) (he : e < w.edges.length) (str : EvalString) :
    Yields (Links w) (addout dupbuildwarn e w str) := by
  refine Yields.any.bind fun path _ => ?_
  have hm := mknode_links w path
  obtain ⟨hlt, -, -, hedges, -⟩ := mknode_spec w path
  generalize w.mknode path = r at hm hlt hedges
  have he' : e < r.1.edges.length := hedges ▸ he
  dsimp only
  split
  case h_1 =>
    split
    case isTrue =>
      refine .ok (hm.trans (setEdge_links e ?_ ?_)) <;>
      · intro d
        split <;> rfl
    case isFalse => exact .error
  case h_2 hnone =>
    refine .ok (hm.trans ⟨fun h => ?_, List.length_modify .., rfl⟩)
    exact h.addout hnone he' (fun k => (modify_gen hlt k).1) (fun k => (modify_gen hlt k).2)
      (edge_setEdge he') (List.length_modify ..)

theorem addin_links (he : e < w.edges.length) (str : EvalString) :
    Yields (Links w) (addin e w str) := by
  refine Yields.any.bind fun path _ => ?_
  have hm := mknode_links w path
  obtain ⟨hlt, -, -, hedges, -⟩ := mknode_spec w path
  generalize w.mknode path = r at hm hlt hedges
  have he' : e < r.1.edges.length := hedges ▸ he
  refine .ok (hm.trans ⟨fun h => ?_, List.length_modify .., rfl⟩)
  exact h.addin (fun k => (modify_use hlt k).1) (fun k => (modify_use hlt k).2)
    (edge_setEdge he') (List.length_modify ..)

theorem Links.of_eq (hnodes : w'.nodes = w.nodes) (hedges : w'.edges = w.edges)
    (hpools : w'.pools = w.pools) : Links w w' := by
  refine ⟨fun h => h.congr ?_ ?_ ?_ ?_ (le_of_eq (by rw [hedges])), by rw [hedges], hpools⟩
  · funext k
    rw [gen, hnodes, gen]
  · funext k
    rw [use, hnodes, use]
  · exact fun k => by rw [edge, hedges, edge]
  · exact fun k => by rw [edge, hedges, edge]

/-- How many jobs a pool admits, which is zero only before its `depth`. -/
def depth (w : World) (p : ℕ) : BitVec 32 := (w.pools.getD p ⟨[], 1⟩).maxjobs

end World

/-! ### Turns -/

section

variable {ι : Type} {files : Files ι} {f : Frame ι} {w : World} {s : Text} {t : Turn ι}

def Turn.world : Turn ι → World
  | .on _ w => w
  | .back w => w
  | .into _ _ w => w

/-- What is on the stack in place of the frame. -/
def Turn.frames : Turn ι → List (Frame ι)
  | .on f _ => [f]
  | .back _ => []
  | .into f g _ => [g, f]

/-- The edge whose block is read exists. -/
def Frame.Within (f : Frame ι) (w : World) : Prop :=
  ∀ e outs ins, f.mode = .edge e outs ins → e < w.edges.length

/-- What a turn keeps. -/
structure Moves (f : Frame ι) (w : World) (t : Turn ι) : Prop where
  linked : w.Linked → t.world.Linked
  edges : w.edges.length ≤ t.world.edges.length
  within : ∀ g ∈ t.frames, g.Within t.world
  pools : ∀ p, t.world.depth p = 0 →
    (f.mode ≠ .pool p ∧ w.depth p = 0) ∨ ∃ g ∈ t.frames, g.mode = .pool p

/-- A turn that adds no edge and no pool. -/
theorem Moves.of_links (hl : World.Links w t.world) (hin : f.Within w)
    (hmode : ∀ g ∈ t.frames, ∀ e outs ins, g.mode = .edge e outs ins → f.mode = .edge e outs ins)
    (hpool : ∀ p, f.mode = .pool p → ∃ g ∈ t.frames, g.mode = .pool p) : Moves f w t := by
  refine ⟨hl.linked, hl.edges.ge, ?_, ?_⟩
  · intro g hg e outs ins hm
    rw [hl.edges]
    exact hin e outs ins (hmode g hg e outs ins hm)
  · intro p hp
    rw [World.depth, hl.pools] at hp
    by_cases hm : f.mode = .pool p
    · exact .inr (hpool p hm)
    · exact .inl ⟨hm, hp⟩

/-- A turn that goes on in the same place of the file. -/
theorem Moves.stay {g : Frame ι} {w' : World} (hl : World.Links w w') (hin : f.Within w)
    (hmode : g.mode = f.mode) : Moves f w (.on g w') := by
  refine .of_links hl hin ?_ ?_
  · intro g' hg' e outs ins hm
    rw [Turn.frames, List.mem_singleton] at hg'
    rw [← hmode, ← hg', hm]
  · exact fun p hp => ⟨g, List.mem_singleton_self g, hmode.trans hp⟩

/-- A turn that goes into another file. -/
theorem Moves.enter {g h : Frame ι} {w' : World} (hl : World.Links w w') (hin : f.Within w)
    (hf : f.mode = .keyword) (hg : g.mode = .keyword) (hh : h.mode = .keyword) :
    Moves f w (.into g h w') := by
  refine .of_links hl hin ?_ fun p hp => ?_
  · intro g' hg' e outs ins hm
    have hkey : g'.mode = .keyword := by
      rcases List.mem_cons.mp hg' with rfl | hg'
      · exact hh
      · exact (List.mem_singleton.mp hg').symm ▸ hg
    cases hkey.symm.trans hm
  · cases hf.symm.trans hp

/-- A statement or a block that is not the one of a pool begins or ends. -/
theorem Moves.leave {g : Frame ι} {w' : World} (hl : World.Links w w') (hin : f.Within w)
    (hnot : ∀ p, f.mode ≠ .pool p) (hmode : ∀ e outs ins, g.mode ≠ .edge e outs ins) :
    Moves f w (.on g w') := by
  refine .of_links hl hin ?_ fun p hp => absurd hp (hnot p)
  intro g' hg' e outs ins hm
  rw [Turn.frames, List.mem_singleton] at hg'
  exact absurd (hg' ▸ hm) (hmode e outs ins)

theorem parserule_moves (hin : f.Within w) (hnot : ∀ p, f.mode ≠ .pool p) :
    Yields (Moves f w) (parserule f w s) :=
  Yields.any.bind fun _ _ => Yields.any.bind fun _ _ =>
    .ok (.leave (.of_eq rfl rfl rfl) hin hnot fun _ _ _ h => by cases h)

theorem rulelet_moves {r : Rule} {c p q : Bool} (hin : f.Within w) (hnot : ∀ p, f.mode ≠ .pool p) :
    Yields (Moves f w) (rulelet f w s r c p q) :=
  Yields.any.bind fun _ _ => Yields.any.bind fun _ _ =>
    .ok (.leave (.of_eq rfl rfl rfl) hin hnot fun _ _ _ h => by cases h)

theorem ruleend_moves {r : Rule} {c p q : Bool} (hin : f.Within w) (hnot : ∀ p, f.mode ≠ .pool p) :
    Yields (Moves f w) (ruleend f w s r c p q) := by
  unfold ruleend
  split
  · exact .error
  split
  · exact .error
  split
  · exact .error
  · exact .ok (.leave (.of_eq rfl rfl rfl) hin hnot fun _ _ _ h => by cases h)

theorem edgelet_moves {e : ℕ} (hin : f.Within w) : Yields (Moves f w) (edgelet f w s e) :=
  Yields.any.bind fun _ _ => Yields.any.bind fun _ _ => .ok (.stay (.of_eq rfl rfl rfl) hin rfl)

theorem parsevariable_moves {var : Text} (hin : f.Within w) :
    Yields (Moves f w) (parsevariable f w s var) :=
  Yields.any.bind fun _ _ => Yields.any.bind fun _ _ => .ok (.stay (.of_eq rfl rfl rfl) hin rfl)

theorem parsedefault_moves (hin : f.Within w) : Yields (Moves f w) (parsedefault f w s) := by
  refine Yields.any.bind fun r _ => ?_
  refine Yields.bind (P := World.Links w) ?_ fun w' hw' => ?_
  · refine .foldlM (fun str w' hw' => ?_) (.of_eq rfl rfl rfl)
    refine Yields.any.bind fun path _ => ?_
    split
    · exact .error
    · exact .ok (hw'.trans (.of_eq rfl rfl rfl))
  · exact Yields.any.bind fun _ _ => .ok (.stay hw' hin rfl)

theorem parseinclude_moves {newscope : Bool} (hin : f.Within w) (hmode : f.mode = .keyword) :
    Yields (Moves f w) (parseinclude f w s files newscope) := by
  refine Yields.any.bind fun r _ => ?_
  dsimp only
  split
  · exact .error
  refine Yields.any.bind fun r _ => ?_
  split
  · exact .error
  refine .ok (.enter ?_ hin hmode hmode rfl)
  cases newscope <;> exact .of_eq rfl rfl rfl

theorem parsepool_moves (hmode : f.mode = .keyword) :
    Yields (Moves f w) (parsepool f w s) := by
  refine Yields.any.bind fun r _ => ?_
  refine Yields.bind (P := fun r => ∃ name, r = ({ w with pools := w.pools ++ [⟨name, 0⟩] },
    w.pools.length)) ?_ fun r' hr' => Yields.any.bind fun _ _ => ?_
  · unfold World.addpool
    split
    · exact .error
    · exact .ok ⟨_, rfl⟩
  obtain ⟨name, rfl⟩ := hr'
  refine .ok ⟨fun h => h.congr rfl rfl (fun _ => rfl) (fun _ => rfl) le_rfl, le_rfl, ?_, ?_⟩
  · intro g hg e outs ins hm
    rw [Turn.frames, List.mem_singleton] at hg
    rw [hg] at hm
    cases hm
  · intro p hp
    by_cases hpl : p = w.pools.length
    · exact .inr ⟨_, List.mem_singleton_self _, by rw [hpl]⟩
    · refine .inl ⟨by simp [hmode], ?_⟩
      unfold World.depth at hp ⊢
      change ((w.pools ++ [⟨name, 0⟩] : List Pool).getD p ⟨[], 1⟩).maxjobs = 0 at hp
      rw [List.getD_eq_getElem?_getD, List.getElem?_append] at hp
      split at hp
      · rw [List.getD_eq_getElem?_getD]
        exact hp
      · have hsub : p - w.pools.length ≠ 0 := by omega
        rw [List.getElem?_eq_none (by simp; omega)] at hp
        exact absurd hp (by simp)

theorem poollet_moves {p : ℕ} (hmode : f.mode = .pool p) :
    Yields (Moves f w) (poollet f w s p) := by
  refine Yields.any.bind fun r _ => Yields.any.bind fun r' _ => ?_
  dsimp only
  split
  case isFalse => exact .error
  split
  case isFalse => exact .error
  refine .ok ⟨fun h => h.congr rfl rfl (fun _ => rfl) (fun _ => rfl) le_rfl, le_rfl, ?_, ?_⟩
  · intro g hg e outs ins hm
    rw [Turn.frames, List.mem_singleton] at hg
    rw [hg] at hm
    cases hmode.symm.trans hm
  · intro q hq
    by_cases hqp : q = p
    · exact .inr ⟨_, List.mem_singleton_self _, by rw [hqp]; exact hmode⟩
    · refine .inl ⟨by simp [hmode, Ne.symm hqp], ?_⟩
      unfold World.depth at hq ⊢
      dsimp only [Turn.world] at hq
      rw [List.getD_eq_getElem?_getD, List.getElem?_modify] at hq
      rw [List.getD_eq_getElem?_getD]
      simpa [Ne.symm hqp] using hq

theorem poolend_moves {p : ℕ} (hmode : f.mode = .pool p) :
    Yields (Moves f w) (poolend f w s p) := by
  unfold poolend
  dsimp only
  split
  · exact .error
  case isFalse hdepth =>
    refine .ok ⟨id, le_rfl, ?_, ?_⟩
    · intro g hg e outs ins hm
      rw [Turn.frames, List.mem_singleton] at hg
      rw [hg] at hm
      cases hm
    · intro q hq
      refine .inl ⟨?_, hq⟩
      intro hm
      rw [hmode] at hm
      cases hm
      refine hdepth ?_
      change (w.pools.getD p ⟨[], 1⟩).maxjobs = 0 at hq
      rw [List.getD_eq_getElem?_getD] at hq ⊢
      cases hget : w.pools[p]? with
      | none => rfl
      | some pool => simpa [hget] using hq

theorem parseedge_moves (hnot : ∀ p, f.mode ≠ .pool p) :
    Yields (Moves f w) (parseedge f w s) := by
  refine Yields.any.bind fun r₁ _ => Yields.any.bind fun r₂ _ => ?_
  dsimp only
  refine Yields.any.bind fun r₃ _ => ?_
  split
  · exact .error
  refine Yields.any.bind fun r₄ _ => Yields.any.bind fun r₅ _ => ?_
  split
  · exact .error
  refine Yields.any.bind fun r₆ _ => Yields.any.bind fun r₇ _ => ?_
  refine Yields.any.bind fun r₈ _ => Yields.any.bind fun r₉ _ => Yields.any.bind fun r₁₀ _ => ?_
  refine .ok ⟨fun h => ?_, ?_, ?_, ?_⟩
  · exact h.mkedge rfl rfl rfl rfl
  · simp [Turn.world, World.mkenv]
  · intro g hg e outs ins hm
    rw [Turn.frames, List.mem_singleton] at hg
    rw [hg] at hm
    cases hm
    simp [Turn.world, World.mkenv]
  · exact fun p hp => .inl ⟨hnot p, hp⟩

theorem edgeend_moves {dupbuildwarn : Bool} {e : ℕ} {outs ins : List EvalString}
    (hin : f.Within w) (hmode : f.mode = .edge e outs ins) :
    Yields (Moves f w) (edgeend f w s dupbuildwarn e outs ins) := by
  have he := hin e outs ins hmode
  have hnot : ∀ p, f.mode ≠ .pool p := by simp [hmode]
  have hleave : ∀ w', World.Links w w' →
      Moves f w (.on { f with rest := s, mode := .keyword } w') :=
    fun w' h => .leave h hin hnot fun _ _ _ h => by cases h
  refine Yields.bind (P := World.Links w) (.foldlM (fun str w' hw' => ?_) (.of_eq rfl rfl rfl))
    fun w₁ h₁ => ?_
  · exact (World.addout_links dupbuildwarn (hw'.edges ▸ he) str).mono fun _ h => hw'.trans h
  refine Yields.bind (P := World.Links w) (.foldlM (fun str w' hw' => ?_) h₁) fun w₂ h₂ => ?_
  · exact (World.addin_links (hw'.edges ▸ he) str).mono fun _ h => hw'.trans h
  refine Yields.bind (P := fun r => World.Links w r.2) ?_ fun r hr => ?_
  · exact Yields.any.bind fun _ _ => .ok (h₂.trans (.of_eq rfl rfl rfl))
  dsimp only
  split
  · exact .ok (hleave _ hr)
  · refine Yields.any.bind fun p _ => .ok (hleave _ (hr.trans (World.setEdge_links e ?_ ?_))) <;>
    · exact fun _ => rfl

theorem statement_moves {keyword : Text} (hin : f.Within w) (hmode : f.mode = .keyword) :
    Yields (Moves f w) (statement f w s files keyword) := by
  have hnot : ∀ p, f.mode ≠ .pool p := by simp [hmode]
  unfold statement
  split
  · exact parseedge_moves hnot
  split
  · exact parsedefault_moves hin
  split
  · exact parseinclude_moves hin hmode
  split
  · exact parsepool_moves hmode
  split
  · exact parserule_moves hin hnot
  split
  · exact parseinclude_moves hin hmode
  · exact parsevariable_moves hin

theorem keywordturn_moves (hin : f.Within w) (hmode : f.mode = .keyword) :
    Yields (Moves f w) (keywordturn files f w) := by
  have hstay : ∀ g : Frame ι, g.mode = f.mode → Moves f w (.on g w) :=
    fun g h => .stay (.of_eq rfl rfl rfl) hin h
  unfold keywordturn
  split
  · refine .ok (.of_links (.of_eq rfl rfl rfl) hin (by simp [Turn.frames]) fun p hp => ?_)
    cases hmode.symm.trans hp
  · refine Yields.any.bind fun r _ => ?_
    dsimp only
    split
    · exact .ok (hstay _ rfl)
    · refine Yields.any.bind fun r' _ => ?_
      split
      · exact .ok (hstay _ rfl)
      · exact .error
  · exact .ok (hstay _ rfl)
  · refine Yields.any.bind fun r _ => ?_
    split
    · exact .ok (hstay _ rfl)
    · exact Yields.any.bind fun _ _ => statement_moves hin hmode

theorem indentturn_moves {line last : Text → Except Stop (Turn ι)} (hin : f.Within w)
    (hline : ∀ s, Yields (Moves f w) (line s)) (hlast : ∀ s, Yields (Moves f w) (last s)) :
    Yields (Moves f w) (indentturn f w line last) := by
  refine Yields.any.bind fun r _ => ?_
  dsimp only
  split
  · exact .ok (.stay (.of_eq rfl rfl rfl) hin rfl)
  split
  · refine Yields.any.bind fun r' _ => ?_
    split
    · exact hlast _
    · exact hline _
  · exact hlast _

theorem turn_moves {dupbuildwarn : Bool} (hin : f.Within w) :
    Yields (Moves f w) (turn files dupbuildwarn f w) := by
  unfold turn
  split
  case h_1 hmode => exact keywordturn_moves hin hmode
  case h_2 hmode =>
    have hnot : ∀ p, f.mode ≠ .pool p := by simp [hmode]
    exact indentturn_moves hin (fun _ => rulelet_moves hin hnot) fun _ => ruleend_moves hin hnot
  case h_3 hmode =>
    exact indentturn_moves hin (fun _ => edgelet_moves hin) fun _ => edgeend_moves hin hmode
  case h_4 hmode =>
    exact indentturn_moves hin (fun _ => poollet_moves hmode) fun _ => poolend_moves hmode

theorem commentturn_moves (hin : f.Within w) : Yields (Moves f w) (commentturn f w) := by
  refine Yields.any.bind fun r _ => ?_
  split
  · exact .ok (.stay (.of_eq rfl rfl rfl) hin rfl)
  · exact .ok (.stay (.of_eq rfl rfl rfl) hin rfl)

end

/-! ### Runs -/

section

variable {ι : Type} {files : Files ι} {dupbuildwarn : Bool} {cfg cfg' : Config ι}

/-- What holds while files are parsed: the links are right, and a pool without a depth is the one
whose block is read. -/
structure Sound (cfg : Config ι) : Prop where
  linked : cfg.world.Linked
  within : ∀ f ∈ cfg.stack, f.Within cfg.world
  pools : ∀ p, cfg.world.depth p = 0 → ∃ f ∈ cfg.stack, f.mode = .pool p

theorem Sound.turn {f : Frame ι} {fs : List (Frame ι)} {w : World} {t : Turn ι}
    (h : Sound ⟨f :: fs, w⟩) (ht : Moves f w t) : Sound ⟨t.frames ++ fs, t.world⟩ := by
  refine ⟨ht.linked h.linked, ?_, ?_⟩
  · intro g hg
    rcases List.mem_append.mp hg with hg | hg
    · exact ht.within g hg
    · intro e outs ins hm
      exact (h.within g (List.mem_cons_of_mem _ hg) e outs ins hm).trans_le ht.edges
  · intro p hp
    rcases ht.pools p hp with ⟨hne, hold⟩ | ⟨g, hg, hm⟩
    · obtain ⟨g, hg, hm⟩ := h.pools p hold
      rcases List.mem_cons.mp hg with rfl | hg
      · exact absurd hm hne
      · exact ⟨g, List.mem_append_right _ hg, hm⟩
    · exact ⟨g, List.mem_append_left _ hg, hm⟩

theorem Sound.step (h : Sound cfg) (hstep : Steps files dupbuildwarn cfg cfg') : Sound cfg' := by
  obtain ⟨stack, w⟩ := cfg
  cases stack with
  | nil => cases hstep
  | cons f fs =>
    have hin : f.Within w := h.within f List.mem_cons_self
    have hmoves : Yields (Moves f w)
        (if f.comment then commentturn f w else Manifest.turn files dupbuildwarn f w) := by
      split
      · exact commentturn_moves hin
      · exact turn_moves hin
    unfold Steps Manifest.step at hstep
    dsimp only at hstep
    split at hstep
    case h_1 => cases hstep
    all_goals
      rename_i heq
      cases hstep
      exact h.turn (hmoves _ heq)

theorem Sound.reaches (h : Sound cfg) (hreach : Reaches files dupbuildwarn cfg cfg') :
    Sound cfg' := by
  induction hreach with
  | refl => exact h
  | tail _ hstep ih => exact ih.step hstep

theorem envinit_sound (file : ι) : Sound (start files file [0] envinit) := by
  refine ⟨⟨?_, ?_, ?_, ?_⟩, ?_, ?_⟩
  · intro n e
    simp [World.use, World.edge, start, envinit]
  · intro n e
    simp [World.gen, World.edge, start, envinit]
  · intro e
    simp [World.edge, start, envinit]
  · intro n e hn
    simp [World.gen, start, envinit] at hn
  · intro f hf e outs ins hm
    rw [start, List.mem_singleton] at hf
    rw [hf] at hm
    cases hm
  · intro p hp
    cases p with
    | zero => simp [World.depth, start, envinit] at hp
    | succ p => simp [World.depth, start, envinit] at hp

/-- The graph that `parse` builds has its links right, and each pool has a depth. -/
theorem parse_linked {file : ι} {w : World}
    (hreach : Reaches files dupbuildwarn (start files file [0] envinit) cfg)
    (hdone : Manifest.step files dupbuildwarn cfg = .done w) : w.Linked ∧ ∀ p, w.depth p ≠ 0 := by
  have h := (envinit_sound file).reaches hreach
  have hstack : cfg.stack = [] ∧ cfg.world = w := by
    unfold Manifest.step at hdone
    split at hdone
    case h_1 hnil =>
      cases hdone
      exact ⟨hnil, rfl⟩
    case h_2 => split at hdone <;> cases hdone
  obtain ⟨hnil, rfl⟩ := hstack
  refine ⟨h.linked, fun p hp => ?_⟩
  obtain ⟨f, hf, -⟩ := h.pools p hp
  rw [hnil] at hf
  cases hf

end

end Bootsh.Samu.Manifest
