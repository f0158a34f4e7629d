import Mathlib.Data.Finset.Card
import Mathlib.Data.Fintype.Card
import Bootsh.Lib.Fuel
import Bootsh.Samu.EdgeVar
import Bootsh.Samu.Tool

/-!
Which tools end on every graph, and on which graphs `clean` does.
-/
namespace Bootsh.Samu.Manifest

open Fuel (Below Finishes)

/-! ### Walks that mark the edges -/

/-- The edges that are not marked. -/
def Walk.left (st : Walk) : Finset ℕ := (st.world.nodes.filterMap Node.gen).toFinset \ st.work.toFinset

/-- What a walk keeps: the nodes, and the marks that there are. -/
structure Walk.Later (st st' : Walk) : Prop where
  nodes : st'.world.nodes = st.world.nodes
  work : st.work ⊆ st'.work

theorem Walk.Later.trans {st st' st'' : Walk} (h : st.Later st') (h' : st'.Later st'') :
    st.Later st'' :=
  ⟨h'.nodes.trans h.nodes, fun _ he => h'.work (h.work he)⟩

theorem Walk.Later.card_le {st st' : Walk} (h : st.Later st') : st'.left.card ≤ st.left.card := by
  refine Finset.card_le_card ?_
  unfold Walk.left
  rw [h.nodes]
  refine Finset.sdiff_subset_sdiff (Finset.Subset.refl _) ?_
  intro e he
  exact List.mem_toFinset.mpr (h.work (List.mem_toFinset.mp he))

theorem gen_mem {w : World} {n e : ℕ} (h : w.gen n = some e) : e ∈ w.nodes.filterMap Node.gen := by
  unfold World.gen at h
  rw [List.getD_eq_getElem?_getD] at h
  cases hn : w.nodes[n]? with
  | none => simp [hn] at h
  | some node =>
    rw [hn] at h
    exact List.mem_filterMap.mpr ⟨node, List.mem_of_getElem? hn, h⟩

theorem Walk.card_mark {st : Walk} {n e : ℕ} (h : st.world.gen n = some e) (hwork : e ∉ st.work) :
    ({ st with work := e :: st.work } : Walk).left.card < st.left.card := by
  refine Finset.card_lt_card ⟨?_, ?_⟩
  · refine Finset.sdiff_subset_sdiff (Finset.Subset.refl _) ?_
    intro x hx
    simp only [List.mem_toFinset, List.mem_cons] at hx ⊢
    exact .inr hx
  · intro hle
    have he : e ∈ st.left := by simpa [Walk.left, hwork] using gen_mem h
    have := hle he
    simp [Walk.left] at this

section

variable {node : ℕ → Walk → Walk} {edge : ℕ → Walk → Except Stop Walk}

theorem walk_below (fuel : ℕ) (st : Walk) (n : ℕ) :
    Below .endless (walk node edge fuel st n) (walk node edge (fuel + 1) st n) := by
  induction fuel generalizing st n with
  | zero => exact .inl rfl
  | succ fuel ih =>
    rw [walk, walk.eq_def node edge (fuel + 1 + 1)]
    dsimp only
    split
    · exact .refl _
    · split
      · exact .refl _
      · exact (Below.foldlM ih _ _).bind fun st' => .refl _

/-- A walk is not deeper than there are edges to mark. -/
theorem walk_finishes (hnode : ∀ n st, (node n st).world = st.world ∧ (node n st).work = st.work)
    (hedge : ∀ e st, Finishes .endless (Walk.Later st) (edge e st)) {fuel : ℕ} {st : Walk}
    (hfuel : st.left.card < fuel) (n : ℕ) :
    Finishes .endless (Walk.Later st) (walk node edge fuel st n) := by
  induction fuel generalizing st n with
  | zero => omega
  | succ fuel ih =>
    have hlater : st.Later (node n st) := ⟨by rw [(hnode n st).1], by
      rw [(hnode n st).2]
      exact fun _ h => h⟩
    have hcard := hlater.card_le
    rw [walk]
    generalize node n st = st₁ at hlater hcard ⊢
    split
    · exact hlater
    · rename_i e hgen
      split
      · exact hlater
      · rename_i hwork
        have hmark := Walk.card_mark hgen hwork
        -- every input is walked with a smaller set of edges to mark
        refine Finishes.bind (P := Walk.Later { st₁ with work := e :: st₁.work })
          (Finishes.foldlM (fun st' hst' i _ => ?_) ⟨rfl, fun _ h => h⟩) fun st' hst' => ?_
        · have hle := hst'.card_le
          have hwalk : Finishes .endless (Walk.Later st') (walk node edge fuel st' i) :=
            ih (by omega) i
          cases hr : walk node edge fuel st' i with
          | error err =>
            rw [hr] at hwalk
            exact hwalk
          | ok st'' =>
            rw [hr] at hwalk
            exact hst'.trans hwalk
        · have hlast := hedge e st'
          have hmarked : st₁.Later st' :=
            ⟨hst'.nodes, fun _ h => hst'.work (List.mem_cons_of_mem _ h)⟩
          cases hr : edge e st' with
          | error err =>
            rw [hr] at hlast
            exact hlast
          | ok st'' =>
            rw [hr] at hlast
            exact hlater.trans (hmarked.trans hlast)

end

theorem getvar_finishes (w : World) (e : Edge) (var : Text) (escape : Bool) :
    Finishes .endless (fun r => r.2.nodes = w.nodes) (w.getvar e var escape) := by
  unfold World.getvar
  generalize (w.rules.getD e.rule ⟨[], []⟩).bindings = b
  have hanswers : Answers w e escape b var (w.edgevar e escape (b.length + 1) b var) :=
    edgevar_answers (Nat.lt_succ_of_le b.unmarked_le)
  refine Finishes.bind (P := fun _ => True) ?_ fun r _ => rfl
  cases hr : w.edgevar e escape (b.length + 1) b var with
  | error err =>
    rw [hr] at hanswers
    obtain ⟨x, rfl, -⟩ := hanswers
    simp [Finishes, cycleError]
  | ok res => trivial

theorem printcommand_finishes (e : ℕ) (st : Walk) :
    Finishes .endless (Walk.Later st) (printcommand e st) := by
  refine (getvar_finishes _ _ _ _).bind fun r hr => ?_
  obtain ⟨command, w⟩ := r
  have hlater : ∀ out, st.Later ⟨w, st.work, out⟩ := fun out => ⟨hr, fun _ h => h⟩
  cases command with
  | none => exact hlater _
  | some command =>
    dsimp only
    split
    · exact hlater _
    · exact hlater _

/-! ### The tools -/

theorem targetnodes_finishes (w : World) (args : List Text) :
    Finishes .endless (fun _ => True) (w.targetnodes args) := by
  have htarget : ∀ arg, Finishes .endless (fun _ => True) (w.target arg) := by
    intro arg
    unfold World.target
    split
    · simp [fatal, Finishes]
    · trivial
  unfold World.targetnodes
  split
  · trivial
  · exact (Finishes.mapM fun arg _ => htarget arg).mono fun _ _ => trivial

/-- A tool that walks from some nodes. -/
theorem walks_end {node : ℕ → Walk → Walk} {edge : ℕ → Walk → Except Stop Walk}
    (hnode : ∀ n st, (node n st).world = st.world ∧ (node n st).work = st.work)
    (hedge : ∀ e st, Finishes .endless (Walk.Later st) (edge e st)) (w : World) (args : List Text)
    (print : List Text → List Text) :
    Fuel.Ends .endless fun fuel => (do
      let nodes ← w.targetnodes args
      let st ← nodes.foldlM (walk node edge fuel) ⟨w, [], []⟩
      return print st.out : Except Stop (List Text)) := by
  refine (Fuel.ends_iff fun fuel => ?_).mpr ⟨(Walk.mk w [] []).left.card + 1, ?_⟩
  · exact (Below.refl _).bind fun nodes =>
      (Below.foldlM (fun st n => walk_below fuel st n) _ _).bind fun st => .refl _
  · refine ((targetnodes_finishes w args).bind (Q := fun _ => True) fun nodes _ => ?_).ne
    refine Finishes.bind (P := Walk.Later ⟨w, [], []⟩) (Finishes.foldlM (fun st hst n _ => ?_)
      ⟨rfl, fun _ h => h⟩) fun st _ => trivial
    have hwalk := walk_finishes hnode hedge (Nat.lt_succ_of_le hst.card_le) n
    cases hr : walk node edge ((Walk.mk w [] []).left.card + 1) st n with
    | error err =>
      rw [hr] at hwalk
      exact hwalk
    | ok st' =>
      rw [hr] at hwalk
      exact hst.trans hwalk

theorem commands_ends (w : World) (args : List Text) : Fuel.Ends .endless (commands w args) :=
  walks_end (fun _ _ => ⟨rfl, rfl⟩) printcommand_finishes w args id

theorem printedge_finishes (nodeptr edgeptr : ℕ → Text) (e : ℕ) (st : Walk) :
    Finishes .endless (Walk.Later st) (printedge nodeptr edgeptr e st) :=
  Walk.Later.mk rfl fun _ h => h

theorem graph_ends (nodeptr edgeptr : ℕ → Text) (w : World) (args : List Text) :
    Fuel.Ends .endless (graph nodeptr edgeptr w args) :=
  @walks_end (printnode nodeptr) (printedge nodeptr edgeptr) (fun _ _ => ⟨rfl, rfl⟩)
    (printedge_finishes nodeptr edgeptr) w args graphtext

section

variable (w : World)

theorem targetsdepth_below (fuel n : ℕ) (depth : BitVec 64) (indent : ℕ) :
    Below .endless (targetsdepth w fuel n depth indent)
      (targetsdepth w (fuel + 1) n depth indent) := by
  induction fuel generalizing n depth indent with
  | zero => exact .inl rfl
  | succ fuel ih =>
    rw [targetsdepth, targetsdepth.eq_def w (fuel + 1 + 1)]
    dsimp only
    split
    · exact .refl _
    · split
      · exact .refl _
      · exact (Below.mapM (fun i => ih i _ _) _).bind fun _ => .refl _

/-- The counter comes down to 1, if it has to wrap first. -/
theorem targetsdepth_finishes {fuel : ℕ} (n : ℕ) {depth : BitVec 64} (indent : ℕ)
    (hfuel : (depth - 1).toNat < fuel) :
    Finishes .endless (fun _ => True) (targetsdepth w fuel n depth indent) := by
  induction fuel generalizing n depth indent with
  | zero => omega
  | succ fuel ih =>
    rw [targetsdepth]
    dsimp only
    split
    · trivial
    · split
      · trivial
      · rename_i hone
        have hlt : (depth - 1 - 1).toNat < fuel := by bv_omega
        exact (Finishes.mapM fun i _ => ih i (indent + 1) hlt).bind fun _ _ => trivial

theorem targetsall_ends (depth : BitVec 64) : Fuel.Ends .endless (targetsall w depth) := by
  refine (Fuel.ends_iff fun fuel => ?_).mpr ⟨(depth - 1).toNat + 1, ?_⟩
  · exact (Below.mapM (fun n => targetsdepth_below w fuel n depth 0) _).bind fun _ => .refl _
  · have hfinishes : Finishes .endless (fun _ => True)
        (targetsall w depth ((depth - 1).toNat + 1)) :=
      (Finishes.mapM fun n _ => targetsdepth_finishes w n 0 (Nat.lt_succ_self _)).bind
        fun _ _ => trivial
    exact hfinishes.ne

theorem ends_const {α : Type} {r : Except Stop α} (h : r ≠ .error .endless) :
    Fuel.Ends .endless fun _ => r := ⟨0, h, fun _ _ => rfl⟩

theorem targets_ends (args : List Text) : Fuel.Ends .endless (targets w args) := by
  unfold targets
  cases args with
  | nil => exact targetsall_ends w 1
  | cons mode rest =>
    dsimp only
    split
    · exact ends_const (by simp)
    split
    · cases rest with
      | nil => exact targetsall_ends w 1
      | cons arg rest =>
        dsimp only
        split
        · exact ends_const (by simp)
        · exact targetsall_ends w _
    split
    · cases rest with
      | nil => exact ends_const (by simp)
      | cons name rest => exact ends_const (by simp)
    split
    · exact ends_const (by simp)
    · exact ends_const (by simp)

/-! ### clean -/

/-- The node is an output that `clean` is to remove. -/
def Removable (n : ℕ) : Prop := ∃ e, w.gen n = some e ∧ w.phony e = false

/-- The node is made by an edge that is not `phony`, of which the other one is an input. -/
def Feeds (n m : ℕ) : Prop := ∃ e, w.gen n = some e ∧ w.phony e = false ∧ m ∈ (w.edge e).ins

/-- The node leads to a cycle of edges that are not `phony`. -/
def LeadsToCycle (n : ℕ) : Prop :=
  ∃ x, Relation.ReflTransGen (Feeds w) n x ∧ Relation.TransGen (Feeds w) x x

variable {w} {removable : Text → Bool}

theorem cleantarget_below (fuel n : ℕ) :
    Below .endless (cleantarget w removable fuel n) (cleantarget w removable (fuel + 1) n) := by
  induction fuel generalizing n with
  | zero => exact .inl rfl
  | succ fuel ih =>
    rw [cleantarget, cleantarget.eq_def w removable (fuel + 1 + 1)]
    dsimp only
    split
    · exact .refl _
    · split
      · exact .refl _
      · exact (Below.mapM ih _).bind fun _ => .refl _

theorem cleantarget_error {fuel n : ℕ} {err : Stop}
    (h : cleantarget w removable fuel n = .error err) : err = .endless := by
  induction fuel generalizing n with
  | zero =>
    cases h
    rfl
  | succ fuel ih =>
    rw [cleantarget] at h
    split at h
    · cases h
    · split at h
      · cases h
      · rename_i e _ _
        cases hr : (w.edge e).ins.mapM (cleantarget w removable fuel) with
        | error err' =>
          rw [hr] at h
          cases h
          obtain ⟨i, -, hi⟩ := Fuel.mapM_error hr
          exact ih hi
        | ok bs =>
          rw [hr] at h
          cases h

theorem cleantarget_edge {fuel n e : ℕ} (hgen : w.gen n = some e) (hphony : w.phony e = false) :
    cleantarget w removable (fuel + 1) n = (do
      let below ← (w.edge e).ins.mapM (cleantarget w removable fuel)
      return (removable (w.pathof n) && below.all Prod.fst,
        w.pathof n :: below.flatMap Prod.snd)) := by
  rw [cleantarget, hgen]
  dsimp only
  rw [if_neg (by simp [hphony])]

/-- A node that leads to a cycle is never done with. -/
theorem cleantarget_cycle {fuel n : ℕ} (h : LeadsToCycle w n) :
    cleantarget w removable fuel n = .error .endless := by
  induction fuel generalizing n with
  | zero => rfl
  | succ fuel ih =>
    have hnext : ∃ m, Feeds w n m ∧ LeadsToCycle w m := by
      obtain ⟨x, hreach, hcycle⟩ := h
      rcases Relation.ReflTransGen.cases_head hreach with rfl | ⟨m, hm, hmx⟩
      · obtain ⟨m, hm, hmn⟩ := Relation.TransGen.head'_iff.mp hcycle
        exact ⟨m, hm, n, hmn, hcycle⟩
      · exact ⟨m, hm, x, hmx, hcycle⟩
    obtain ⟨m, ⟨e, hgen, hphony, hm⟩, hleads⟩ := hnext
    rw [cleantarget_edge hgen hphony, Fuel.mapM_out ⟨m, hm, ih hleads⟩ fun _ _ => cleantarget_error]
    rfl

theorem cleantarget_finishes {n : ℕ} (h : ¬ LeadsToCycle w n) :
    ∃ fuel, cleantarget w removable fuel n ≠ .error .endless := by
  have hfinite : {n | ∃ m, Feeds w n m}.Finite := by
    refine (Set.finite_lt_nat w.nodes.length).subset ?_
    rintro n ⟨m, e, hgen, -⟩
    by_contra hle
    unfold World.gen at hgen
    rw [List.getD_eq_getElem?_getD, List.getElem?_eq_none (not_lt.mp hle)] at hgen
    cases hgen
  have hacc := Fuel.acc_of_no_cycle hfinite fun x hx hcycle => h ⟨x, hx, hcycle⟩
  induction hacc with
  | intro n _ ih =>
    have hnext : ∀ m, Feeds w n m → ∃ fuel, cleantarget w removable fuel m ≠ .error .endless :=
      fun m hm => ih m hm fun ⟨x, hx, hcycle⟩ => h ⟨x, .head hm hx, hcycle⟩
    cases hgen : w.gen n with
    | none => exact ⟨1, by simp [cleantarget, hgen]⟩
    | some e =>
      cases hphony : w.phony e with
      | true => exact ⟨1, by simp [cleantarget, hgen, hphony]⟩
      | false =>
        -- as much fuel as the input with the greatest need has
        obtain ⟨k, hk⟩ : ∃ k, ∀ m ∈ (w.edge e).ins,
            cleantarget w removable k m ≠ .error .endless := by
          have hins : ∀ m ∈ (w.edge e).ins, Feeds w n m := fun m hm => ⟨e, hgen, hphony, hm⟩
          generalize (w.edge e).ins = l at hins
          induction l with
          | nil => exact ⟨0, by simp⟩
          | cons m l ihl =>
            obtain ⟨k, hk⟩ := ihl fun i hi => hins i (List.mem_cons_of_mem _ hi)
            obtain ⟨k', hk'⟩ := hnext m (hins m List.mem_cons_self)
            refine ⟨max k k', fun i hi => ?_⟩
            rcases List.mem_cons.mp hi with rfl | hi
            · rwa [Fuel.le_of_below (fun f => cleantarget_below f i) hk' (le_max_right k k')]
            · have := hk i hi
              rwa [Fuel.le_of_below (fun f => cleantarget_below f i) this (le_max_left k k')]
        refine ⟨k + 1, fun hend => ?_⟩
        rw [cleantarget_edge hgen hphony] at hend
        cases hr : (w.edge e).ins.mapM (cleantarget w removable k) with
        | error err =>
          obtain ⟨i, hi, herr⟩ := Fuel.mapM_error hr
          exact hk i hi (cleantarget_error herr ▸ herr)
        | ok bs =>
          rw [hr] at hend
          cases hend

/-- What is removed for a target: the outputs that it leads to. -/
theorem cleantarget_paths {fuel n : ℕ} {res : Cleaned}
    (h : cleantarget w removable fuel n = .ok res) (p : Text) :
    p ∈ res.2 ↔ ∃ m, Relation.ReflTransGen (Feeds w) n m ∧ Removable w m ∧ p = w.pathof m := by
  induction fuel generalizing n res with
  | zero => cases h
  | succ fuel ih =>
    -- the nodes that nothing is done for
    have hnothing : (∀ e, w.gen n = some e → w.phony e = true) → ¬ ∃ m,
        Relation.ReflTransGen (Feeds w) n m ∧ Removable w m ∧ p = w.pathof m := by
      rintro hno ⟨m, hreach, ⟨e, hgen, hphony⟩, -⟩
      rcases Relation.ReflTransGen.cases_head hreach with rfl | ⟨i, ⟨e', hgen', hphony', -⟩, -⟩
      · exact absurd (hno e hgen) (by simp [hphony])
      · exact absurd (hno e' hgen') (by simp [hphony'])
    cases hgen : w.gen n with
    | none =>
      rw [cleantarget, hgen] at h
      cases h
      exact iff_of_false (by simp) (hnothing (by simp [hgen]))
    | some e =>
      cases hphony : w.phony e with
      | true =>
        rw [cleantarget, hgen] at h
        dsimp only at h
        rw [if_pos hphony] at h
        cases h
        exact iff_of_false (by simp) (hnothing (by simp [hgen, hphony]))
      | false =>
        rw [cleantarget_edge hgen hphony] at h
        obtain ⟨bs, hbs, hres⟩ := Fallible.bind_eq_ok.mp h
        cases hres
        have hall := Fuel.mapM_ok hbs
        rw [List.mem_cons, List.mem_flatMap]
        constructor
        · rintro (rfl | ⟨b, hb, hp⟩)
          · exact ⟨n, .refl, ⟨e, hgen, hphony⟩, rfl⟩
          · obtain ⟨i, hi, hib⟩ := Fuel.forall₂_mem_right hall hb
            obtain ⟨m, hreach, hm⟩ := (ih hib).mp hp
            exact ⟨m, .head ⟨e, hgen, hphony, hi⟩ hreach, hm⟩
        · rintro ⟨m, hreach, hm⟩
          rcases Relation.ReflTransGen.cases_head hreach with rfl | ⟨i, hi, him⟩
          · exact .inl hm.2
          · obtain ⟨e', hgen', -, hi⟩ := hi
            rw [hgen] at hgen'
            cases hgen'
            obtain ⟨b, hb, hib⟩ := Fuel.forall₂_mem_left hall hi
            exact .inr ⟨b, hb, (ih hib).mpr ⟨m, him, hm⟩⟩

/-- Every tool ends, and `clean` removes what the targets lead to. -/
structure ToolsEnd (w : World) (removable : Text → Bool) (nodeptr edgeptr : ℕ → Text)
    (args : List Text) : Prop where
  clean : ∃ k removed, (∀ fuel, k ≤ fuel → clean w removable args fuel = .ok removed) ∧
    ∀ p, p ∈ removed.2 ↔ ∃ target ∈ args, ∃ n m, w.nodeget target = some n ∧
      Relation.ReflTransGen (Feeds w) n m ∧ Removable w m ∧ p = w.pathof m
  commands : ∀ args, Fuel.Ends .endless (commands w args)
  graph : ∀ args, Fuel.Ends .endless (graph nodeptr edgeptr w args)
  query : ∀ args, query w args ≠ .error .endless
  targets : ∀ args, Fuel.Ends .endless (targets w args)

theorem target_ne_endless (w : World) (arg : Text) : w.target arg ≠ .error .endless := by
  unfold World.target
  split <;> simp [fatal]

theorem query_ends (w : World) (args : List Text) : query w args ≠ .error .endless := by
  have hfinishes : Finishes .endless (fun _ => True) (query w args) := by
    unfold query
    split
    · simp [Finishes]
    · refine Finishes.bind (Finishes.mapM (R := fun _ _ => True) fun arg _ => ?_)
        fun _ _ => trivial
      refine Finishes.bind (P := fun _ => True) ?_ fun _ _ => trivial
      have := target_ne_endless w arg
      cases hr : w.target arg with
      | error err =>
        rw [hr] at this
        exact fun herr => this (by rw [herr])
      | ok n => trivial
  exact hfinishes.ne

theorem cleanarg_below (fuel : ℕ) (target : Text) :
    Below .endless (cleanarg w removable fuel target) (cleanarg w removable (fuel + 1) target) := by
  unfold cleanarg
  split
  · exact .refl _
  · exact cleantarget_below fuel _

theorem cleanarg_error {fuel : ℕ} {target : Text} {err : Stop}
    (h : cleanarg w removable fuel target = .error err) : err = .endless := by
  unfold cleanarg at h
  split at h
  · cases h
  · exact cleantarget_error h

theorem clean_ok (removable : Text → Bool) {args : List Text}
    (h : ∀ target ∈ args, ∀ n, w.nodeget target = some n → ¬ LeadsToCycle w n) :
    ∃ k cleaned, args.mapM (cleanarg w removable k) = .ok cleaned := by
  have hfinishes : ∃ k, ∀ target ∈ args, cleanarg w removable k target ≠ .error .endless := by
    induction args with
    | nil => exact ⟨0, by simp⟩
    | cons target args ih =>
      obtain ⟨k, hk⟩ := ih fun t ht => h t (List.mem_cons_of_mem _ ht)
      obtain ⟨k', hk'⟩ : ∃ k', cleanarg w removable k' target ≠ .error .endless := by
        unfold cleanarg
        cases hget : w.nodeget target with
        | none => exact ⟨0, by simp⟩
        | some n => exact cleantarget_finishes (h target List.mem_cons_self n hget)
      refine ⟨max k k', fun t ht => ?_⟩
      rcases List.mem_cons.mp ht with rfl | ht
      · rwa [Fuel.le_of_below (fun f => cleanarg_below f t) hk' (le_max_right k k')]
      · have := hk t ht
        rwa [Fuel.le_of_below (fun f => cleanarg_below f t) this (le_max_left k k')]
  obtain ⟨k, hk⟩ := hfinishes
  cases hr : args.mapM (cleanarg w removable k) with
  | ok cleaned => exact ⟨k, cleaned, hr⟩
  | error err =>
    obtain ⟨target, htarget, herr⟩ := Fuel.mapM_error hr
    exact absurd (cleanarg_error herr ▸ herr) (hk target htarget)

/-- `build a: cc a` with the rule `cc` behind `phony` -/
def selfWorld : World :=
  ⟨[⟨[], [("phony".toList, 0), ("cc".toList, 1)]⟩, ⟨[], []⟩],
    [⟨"phony".toList, []⟩, ⟨"cc".toList, [("command".toList, .str [⟨none, some "x".toList⟩])]⟩],
    [⟨"console".toList, 1⟩], [⟨['a'], some 0, [0]⟩], [⟨1, none, [1, 0], [0], [0], 1, 1, 1⟩], []⟩

end

end Bootsh.Samu.Manifest
