import Mathlib.Logic.Relation
import Bootsh.Lib.Fallible
import Bootsh.Samu.Graph

/-!
The order in which the variables of an edge are looked up, and that `edgevar` follows it over any
number of calls.
-/
namespace Bootsh.Samu.Manifest

/-! ### Cached values -/

/-- The part without the value of its variable. -/
def Part.blank (p : Part) : Part :=
  match p.var with
  | some var => ⟨some var, none⟩
  | none => p

def Value.blank : Value → Value
  | .str s => .str (s.map Part.blank)
  | .cycle => .cycle

def Bindings.blank (b : Bindings) : Bindings := b.map (Prod.map id Value.blank)

theorem Part.blank_var (p : Part) : p.blank.var = p.var := by
  unfold blank
  split <;> simp_all

theorem Part.blank_eval (f : Text → Option Text) (p : Part) : p.blank.eval f = p.eval f := by
  obtain ⟨_ | v, str⟩ := p <;> rfl

theorem Part.eval_blank (f : Text → Option Text) (p : Part) : (p.eval f).blank = p.blank := by
  obtain ⟨_ | v, str⟩ := p <;> rfl

namespace Bindings

variable {b b' : Bindings} {k v : Text}

theorem treefind_blank (b : Bindings) (k : Text) :
    treefind b.blank k = (treefind b k).map Value.blank :=
  Upsert.lookup_map Value.blank

theorem blank_treeinsert (b : Bindings) (k : Text) (val : Value) :
    blank (treeinsert b k val) = treeinsert b.blank k val.blank :=
  Upsert.map_upsert Value.blank

/-- A binding that is marked and gets its value back. -/
theorem restored {str str' : EvalString} (hfind : treefind b v = some (.str str))
    (hb : b'.blank = blank (treeinsert b v .cycle)) (hstr : str'.map Part.blank = str.map Part.blank) :
    blank (treeinsert b' v (.str str')) = b.blank := by
  rw [blank_treeinsert, hb, blank_treeinsert, Value.blank, hstr]
  refine Upsert.upsert_upsert.trans (Upsert.upsert_of_lookup ?_)
  have := treefind_blank b v
  rw [hfind] at this
  exact this

/-- The number of bindings that are not marked. -/
def unmarked (b : Bindings) : ℕ := b.countP fun p => p.2 ≠ .cycle

theorem unmarked_le (b : Bindings) : b.unmarked ≤ b.length := List.countP_le_length

theorem unmarked_mark {str : EvalString} (h : treefind b v = some (.str str)) :
    (unmarked (treeinsert b v .cycle)) < b.unmarked := by
  induction b with
  | nil => cases h
  | cons y b ih =>
    obtain ⟨k, val⟩ := y
    by_cases hk : k = v
    · subst hk
      have hval : val = .str str := by simpa [treefind_cons] using h
      simp [treeinsert, Upsert.upsert, unmarked, hval]
    · have hb : treefind b v = some (.str str) := by
        rwa [treefind_cons, if_neg (Ne.symm hk)] at h
      have := ih hb
      simp only [treeinsert, Upsert.upsert, unmarked, if_neg hk, List.countP_cons] at this ⊢
      omega

theorem unmarked_blank (b : Bindings) : b.blank.unmarked = b.unmarked := by
  unfold unmarked blank
  rw [List.countP_map]
  congr 1
  funext ⟨k, val⟩
  cases val <;> simp [Value.blank]

end Bindings

/-! ### The order of the lookups -/

section

variable (w : World) (e : Edge) (escape : Bool) (b : Bindings)

/-- The variable stands for a binding of the rule. -/
def Expanded (v : Text) : Prop := w.pathvar e escape v = none ∧ w.edgebinding e v = none

/-- What a variable means: a list of paths, a binding of the edge, else one of the rule with the
meanings of its own variables in it, and else what the scope of the file says. -/
inductive Denotes : Text → Option Text → Prop
  | paths {v : Text} {val : Option Text} : w.pathvar e escape v = some val → Denotes v val
  | edge {v val : Text} : w.pathvar e escape v = none → w.edgebinding e v = some val →
      Denotes v (some val)
  | rule {v : Text} {str : EvalString} (f : Text → Option Text) : Expanded w e escape v →
      treefind b v = some (.str str) → (∀ p ∈ str, ∀ x, p.var = some x → Denotes x (f x)) →
      Denotes v (some (merge (str.map (Part.eval f))))
  | scope {v : Text} : Expanded w e escape v → treefind b v = none →
      Denotes v (envvar w.envs e.env.tail v)

/-- The binding of `v` in the rule has the variable `x` in it. -/
def Uses (v x : Text) : Prop :=
  Expanded w e escape v ∧ ∃ str, treefind b v = some (.str str) ∧ ∃ p ∈ str, p.var = some x

/-- The expansion of `v` reaches a variable that reaches itself. -/
def Cyclic (v x : Text) : Prop :=
  Relation.ReflTransGen (Uses w e escape b) v x ∧ Relation.TransGen (Uses w e escape b) x x

def Marked (x : Text) : Prop := Expanded w e escape x ∧ treefind b x = some .cycle

def cycleError (x : Text) : Stop :=
  .fatal ("cycle in rule variable involving '" ++ String.ofList x ++ "'")

end

variable {w : World} {e : Edge} {escape : Bool} {b b' : Bindings} {v x : Text}

theorem Denotes.unique {r r' : Option Text} (h : Denotes w e escape b v r)
    (h' : Denotes w e escape b v r') : r = r' := by
  induction h generalizing r' with
  | paths hv =>
    cases h' with
    | paths hv' => exact Option.some.inj (hv.symm.trans hv')
    | edge hno _ => rw [hv] at hno; cases hno
    | rule _ hno _ _ => exact absurd (hv.symm.trans hno.1) (by simp)
    | scope hno _ => exact absurd (hv.symm.trans hno.1) (by simp)
  | edge hno hv =>
    cases h' with
    | paths hv' => rw [hno] at hv'; cases hv'
    | edge _ hv' => exact hv.symm.trans hv'
    | rule _ hno' _ _ => exact absurd (hv.symm.trans hno'.2) (by simp)
    | scope hno' _ => exact absurd (hv.symm.trans hno'.2) (by simp)
  | rule f hno hfind _ ih =>
    cases h' with
    | paths hv' => rw [hno.1] at hv'; cases hv'
    | edge _ hv' => rw [hno.2] at hv'; cases hv'
    | rule g _ hfind' hg =>
      rw [hfind] at hfind'
      cases hfind'
      refine congrArg (some ∘ merge) (List.map_congr_left fun p hp => ?_)
      unfold Part.eval
      split
      · rename_i x hx
        rw [ih p hp x hx (hg p hp x hx)]
      · rfl
    | scope _ hfind' => rw [hfind] at hfind'; cases hfind'
  | scope hno hfind =>
    cases h' with
    | paths hv' => rw [hno.1] at hv'; cases hv'
    | edge _ hv' => rw [hno.2] at hv'; cases hv'
    | rule g _ hfind' hg => rw [hfind] at hfind'; cases hfind'
    | scope _ _ => rfl

/-- The bindings of `b` that are not marked are those of `b'`, but for cached values. -/
structure Within (b b' : Bindings) : Prop where
  str : ∀ k s, treefind b k = some (.str s) →
    ∃ s', treefind b' k = some (.str s') ∧ s'.map Part.blank = s.map Part.blank
  none : ∀ k, treefind b k = none → treefind b' k = none

theorem Within.of_blank (h : b.blank = b'.blank) : Within b b' := by
  have hfind : ∀ k, (treefind b k).map Value.blank = (treefind b' k).map Value.blank := by
    intro k
    rw [← Bindings.treefind_blank, h, Bindings.treefind_blank]
  constructor
  · intro k s hs
    have hk := hfind k
    rw [hs] at hk
    obtain ⟨val, hval, hblank⟩ := Option.map_eq_some_iff.mp hk.symm
    cases val with
    | str s' => exact ⟨s', hval, Value.str.inj hblank⟩
    | cycle => cases hblank
  · intro k hk
    have := hfind k
    rw [hk] at this
    exact Option.map_eq_none_iff.mp this.symm

theorem Within.mark (b : Bindings) (v : Text) :
    Within (treeinsert b v .cycle) b := by
  constructor
  · intro k s' hk
    rw [treefind_treeinsert] at hk
    split at hk
    · cases hk
    · exact ⟨s', hk, rfl⟩
  · intro k hk
    rw [treefind_treeinsert] at hk
    split at hk
    · cases hk
    · exact hk

theorem map_eval_blank {s s' : EvalString} (h : s'.map Part.blank = s.map Part.blank)
    (f : Text → Option Text) : s'.map (Part.eval f) = s.map (Part.eval f) := by
  have hmap : ∀ t : EvalString, t.map (Part.eval f) = (t.map Part.blank).map (Part.eval f) := by
    intro t
    rw [List.map_map]
    exact List.map_congr_left fun p _ => (p.blank_eval f).symm
  rw [hmap, h, ← hmap]

/-- The variables in two strings that differ in cached values only. -/
theorem mem_blank {s s' : EvalString} (h : s'.map Part.blank = s.map Part.blank) {p : Part}
    (hp : p ∈ s') : ∃ q ∈ s, q.var = p.var := by
  have hmem : p.blank ∈ s.map Part.blank := h ▸ List.mem_map_of_mem hp
  obtain ⟨q, hq, heq⟩ := List.mem_map.mp hmem
  exact ⟨q, hq, by rw [← q.blank_var, heq, p.blank_var]⟩

theorem Denotes.mono {r : Option Text} (hle : Within b b') (h : Denotes w e escape b v r) :
    Denotes w e escape b' v r := by
  induction h with
  | paths hv => exact .paths hv
  | edge hno hv => exact .edge hno hv
  | scope hno hfind => exact .scope hno (hle.none _ hfind)
  | rule f hno hfind _ ih =>
    obtain ⟨s', hfind', hblank⟩ := hle.str _ _ hfind
    rw [← map_eval_blank hblank f]
    refine .rule f hno hfind' fun p hp x hx => ?_
    obtain ⟨q, hq, hvar⟩ := mem_blank hblank hp
    exact ih q hq x (hvar.trans hx)

theorem Uses.mono (hle : Within b b') (h : Uses w e escape b v x) : Uses w e escape b' v x := by
  obtain ⟨hno, s, hfind, p, hp, hx⟩ := h
  obtain ⟨s', hfind', hblank⟩ := hle.str _ _ hfind
  obtain ⟨q, hq, hvar⟩ := mem_blank hblank.symm hp
  exact ⟨hno, s', hfind', q, hq, hvar.trans hx⟩

/-- A variable that has a meaning reaches no cycle. -/
theorem Denotes.not_cyclic {r : Option Text} (h : Denotes w e escape b v r) :
    ∀ x, ¬ Cyclic w e escape b v x := by
  -- the variables that have no binding of the rule to be expanded
  have hends : ∀ {v}, (∀ y, ¬ Uses w e escape b v y) → ∀ x, ¬ Cyclic w e escape b v x := by
    rintro v hno x ⟨hreach, hcycle⟩
    rcases Relation.ReflTransGen.cases_head hreach with rfl | ⟨y, hy, -⟩
    · obtain ⟨y, hy, -⟩ := Relation.TransGen.head'_iff.mp hcycle
      exact hno y hy
    · exact hno y hy
  induction h with
  | paths hv => exact hends fun y hy => by simpa [hv] using hy.1.1
  | edge hno hv => exact hends fun y hy => by simpa [hv] using hy.1.2
  | scope hno hfind =>
    refine hends ?_
    rintro y ⟨-, s, hs, -⟩
    rw [hfind] at hs
    cases hs
  | @rule v s f hno hfind _ ih =>
    have hnext : ∀ y, Uses w e escape b v y → ∀ x, ¬ Cyclic w e escape b y x := by
      rintro y ⟨-, s', hs', p, hp, hy⟩
      rw [hfind] at hs'
      cases hs'
      exact ih p hp y hy
    rintro x ⟨hreach, hcycle⟩
    rcases Relation.ReflTransGen.cases_head hreach with rfl | ⟨y, hy, hyx⟩
    · obtain ⟨y, hy, hyv⟩ := Relation.TransGen.head'_iff.mp hcycle
      exact hnext y hy v ⟨hyv, hcycle⟩
    · exact hnext y hy x ⟨hyx, hcycle⟩

/-! ### The code -/

/-- What `edgevar` may give for `v` on the bindings `b`. -/
def Answers (w : World) (e : Edge) (escape : Bool) (b : Bindings) (v : Text) :
    Except Stop (Option Text × Bindings) → Prop
  | .ok (r, b') => b'.blank = b.blank ∧ Denotes w e escape b v r
  | .error err => ∃ x, err = cycleError x ∧ Relation.ReflTransGen (Uses w e escape b) v x ∧
      (Marked w e escape b x ∨ Relation.TransGen (Uses w e escape b) x x)

theorem Answers.congr (h : b.blank = b'.blank) {res : Except Stop (Option Text × Bindings)}
    (hres : Answers w e escape b v res) : Answers w e escape b' v res := by
  have hle := Within.of_blank h
  cases res with
  | ok res => exact ⟨hres.1.trans h, hres.2.mono hle⟩
  | error err =>
    obtain ⟨x, herr, hreach, hmarked⟩ := hres
    refine ⟨x, herr, Relation.ReflTransGen.mono (fun _ _ => Uses.mono hle) _ _ hreach, ?_⟩
    rcases hmarked with ⟨hno, hfind⟩ | hcycle
    · refine .inl ⟨hno, ?_⟩
      have hk := Bindings.treefind_blank b x
      rw [h, Bindings.treefind_blank, hfind] at hk
      obtain ⟨val, hval, hblank⟩ := Option.map_eq_some_iff.mp hk
      cases val with
      | str s => cases hblank
      | cycle => exact hval
    · exact .inr (Relation.TransGen.mono (fun _ _ => Uses.mono hle) _ _ hcycle)

open Classical in
/-- The meaning of a variable that has one. -/
noncomputable def meaning (w : World) (e : Edge) (escape : Bool) (b : Bindings) (v : Text) :
    Option Text :=
  if h : ∃ r, Denotes w e escape b v r then h.choose else none

theorem Denotes.meaning {r : Option Text} (h : Denotes w e escape b v r) :
    Manifest.meaning w e escape b v = r := by
  have hr : ∃ r, Denotes w e escape b v r := ⟨r, h⟩
  rw [Manifest.meaning, dif_pos hr]
  exact hr.choose_spec.unique h

/-- What the loop over the parts may give. -/
def PartsAnswer (w : World) (e : Edge) (escape : Bool) (b : Bindings) (s : EvalString) :
    Except Stop (EvalString × Bindings) → Prop
  | .ok (s', b') => b'.blank = b.blank ∧ s' = s.map (Part.eval (meaning w e escape b)) ∧
      ∀ p ∈ s, ∀ x, p.var = some x → Denotes w e escape b x (meaning w e escape b x)
  | .error err => ∃ p ∈ s, ∃ x, p.var = some x ∧ Answers w e escape b x (.error err)

/-- The loop over the parts, when every variable in them is looked up rightly. -/
theorem expandparts_answers
    {lookup : Bindings → Text → Except Stop (Option Text × Bindings)} {b₁ : Bindings}
    (hlookup : ∀ b, b.blank = b₁.blank → ∀ x, Answers w e escape b x (lookup b x))
    {b : Bindings} (hb : b.blank = b₁.blank) (s : EvalString) :
    PartsAnswer w e escape b₁ s (World.expandparts lookup b s) := by
  induction s generalizing b with
  | nil => exact ⟨hb, rfl, by simp⟩
  | cons p s ih =>
    rw [World.expandparts]
    cases hvar : p.var with
    | none =>
      have hrest := ih hb
      dsimp only
      cases hs : World.expandparts lookup b s with
      | error err =>
        rw [hs] at hrest
        obtain ⟨q, hq, hrest⟩ := hrest
        exact ⟨q, List.mem_cons_of_mem _ hq, hrest⟩
      | ok res =>
        rw [hs] at hrest
        obtain ⟨hblank, hmap, hden⟩ := hrest
        refine ⟨hblank, ?_, ?_⟩
        · rw [List.map_cons, ← hmap, Part.eval, hvar]
        · intro q hq x hx
          rcases List.mem_cons.mp hq with rfl | hq
          · rw [hvar] at hx
            cases hx
          · exact hden q hq x hx
    | some x =>
      have hhead := (hlookup b hb x).congr hb
      dsimp only
      cases hl : lookup b x with
      | error err =>
        rw [hl] at hhead
        exact ⟨p, List.mem_cons_self, x, hvar, hhead⟩
      | ok res =>
        obtain ⟨r, b₂⟩ := res
        rw [hl] at hhead
        obtain ⟨hb₂, hden₂⟩ := hhead
        have hrest := ih hb₂
        simp only [bind, Except.bind]
        cases hs : World.expandparts lookup b₂ s with
        | error err =>
          rw [hs] at hrest
          obtain ⟨q, hq, hrest⟩ := hrest
          exact ⟨q, List.mem_cons_of_mem _ hq, hrest⟩
        | ok res =>
          rw [hs] at hrest
          obtain ⟨hblank, hmap, hden⟩ := hrest
          refine ⟨hblank, ?_, ?_⟩
          · rw [List.map_cons, ← hmap, Part.eval, hvar]
            simp [hden₂.meaning]
          · intro q hq y hy
            rcases List.mem_cons.mp hq with rfl | hq
            · rw [hvar] at hy
              cases hy
              rw [hden₂.meaning]
              exact hden₂
            · exact hden q hq y hy

/-- With more fuel than there are bindings to mark, `edgevar` answers. -/
theorem edgevar_answers {fuel : ℕ} (hfuel : b.unmarked < fuel) :
    Answers w e escape b v (w.edgevar e escape fuel b v) := by
  induction fuel generalizing b v with
  | zero => omega
  | succ fuel ih =>
    rw [World.edgevar]
    cases hpaths : w.pathvar e escape v with
    | some val => exact ⟨rfl, .paths hpaths⟩
    | none =>
      dsimp only
      cases hedge : w.edgebinding e v with
      | some val => exact ⟨rfl, .edge hpaths hedge⟩
      | none =>
        have hno : Expanded w e escape v := ⟨hpaths, hedge⟩
        dsimp only
        cases hfind : treefind b v with
        | none => exact ⟨rfl, .scope hno hfind⟩
        | some val =>
          cases val with
          | cycle => exact ⟨v, rfl, .refl, .inl ⟨hno, hfind⟩⟩
          | str s =>
            dsimp only
            have hlt := Bindings.unmarked_mark hfind
            have hmark : Within (treeinsert b v .cycle) b := .mark b v
            have hparts : PartsAnswer w e escape (treeinsert b v .cycle) s
                (World.expandparts (w.edgevar e escape fuel) (treeinsert b v .cycle) s) := by
              refine expandparts_answers (fun b' hb' x => ih ?_) rfl s
              rw [← b'.unmarked_blank, hb', Bindings.unmarked_blank]
              omega
            cases hs : World.expandparts (w.edgevar e escape fuel) (treeinsert b v .cycle) s with
            | error err =>
              rw [hs] at hparts
              obtain ⟨p, hp, x, hx, y, herr, hreach, hmarked⟩ := hparts
              have huses : Uses w e escape b v x := ⟨hno, s, hfind, p, hp, hx⟩
              have hxy := Relation.ReflTransGen.mono (fun _ _ => Uses.mono hmark) _ _ hreach
              refine ⟨y, herr, .head huses hxy, ?_⟩
              rcases hmarked with ⟨hno', hy⟩ | hcycle
              · rw [treefind_treeinsert] at hy
                split at hy
                case isTrue heq =>
                  subst heq
                  exact .inr (.head' huses hxy)
                case isFalse => exact .inl ⟨hno', hy⟩
              · exact .inr (Relation.TransGen.mono (fun _ _ => Uses.mono hmark) _ _ hcycle)
            | ok res =>
              obtain ⟨s', b'⟩ := res
              rw [hs] at hparts
              obtain ⟨hblank, hmap, hden⟩ := hparts
              refine ⟨Bindings.restored hfind hblank ?_, ?_⟩
              · rw [hmap, List.map_map]
                exact List.map_congr_left fun p _ => p.eval_blank _
              · rw [hmap]
                exact .rule _ hno hfind fun p hp x hx => (hden p hp x hx).mono hmark

theorem Denotes.uses {r : Option Text} (h : Denotes w e escape b v r)
    (hreach : Relation.ReflTransGen (Uses w e escape b) v x) :
    ∃ r', Denotes w e escape b x r' := by
  induction hreach with
  | refl => exact ⟨r, h⟩
  | tail _ huses ih =>
    obtain ⟨r', hr'⟩ := ih
    obtain ⟨hno, str, hfind, p, hp, hx⟩ := huses
    cases hr' with
    | paths hv => rw [hno.1] at hv; cases hv
    | edge _ hv => rw [hno.2] at hv; cases hv
    | scope _ hfind' => rw [hfind] at hfind'; cases hfind'
    | rule f _ hfind' hf =>
      rw [hfind] at hfind'
      cases hfind'
      exact ⟨f _, hf p hp _ hx⟩

theorem Denotes.not_marked {r : Option Text} (h : Denotes w e escape b v r) :
    ¬ Marked w e escape b v := by
  rintro ⟨hno, hfind⟩
  cases h with
  | paths hv => rw [hno.1] at hv; cases hv
  | edge _ hv => rw [hno.2] at hv; cases hv
  | scope _ hfind' => rw [hfind] at hfind'; cases hfind'
  | rule f _ hfind' _ => rw [hfind] at hfind'; cases hfind'

/-- A variable that has a meaning is no error. -/
theorem Denotes.not_error {r : Option Text} {err : Stop} (h : Denotes w e escape b v r) :
    ¬ Answers w e escape b v (.error err) := by
  rintro ⟨x, -, hreach, hmarked⟩
  obtain ⟨r', hr'⟩ := h.uses hreach
  rcases hmarked with hmarked | hcycle
  · exact hr'.not_marked hmarked
  · exact h.not_cyclic x ⟨hreach, hcycle⟩

/-! ### Calls for the edges of a rule -/

structure Call where
  e : Edge
  escape : Bool
  var : Text

def Call.run (w : World) (fuel : ℕ) (c : Call) (b : Bindings) : Except Stop Bindings :=
  (w.edgevar c.e c.escape fuel b c.var).map Prod.snd

/-- The bindings between two calls. -/
def Bindings.Clean (b : Bindings) : Prop := ∀ k, treefind b k ≠ some .cycle

theorem Bindings.Clean.congr (h : b.blank = b'.blank) (hb : b.Clean) : b'.Clean := by
  intro k hk
  have hfind := Bindings.treefind_blank b k
  rw [h, Bindings.treefind_blank, hk] at hfind
  obtain ⟨val, hval, hblank⟩ := Option.map_eq_some_iff.mp hfind.symm
  cases val with
  | str s => cases hblank
  | cycle => exact hb k hval

theorem calls_blank {fuel : ℕ} {calls : List Call} (hfuel : b.length < fuel)
    (hrun : Fallible.each (Call.run w fuel) calls b = .ok b') : b'.blank = b.blank := by
  refine Fallible.each_preserves (P := fun c : Bindings => c.blank = b.blank) ?_ rfl hrun
  intro c _ b₁ b₂ hb₁ hstep
  have hunmarked : b₁.unmarked < fuel := by
    rw [← b₁.unmarked_blank, hb₁, Bindings.unmarked_blank]
    exact b.unmarked_le.trans_lt hfuel
  have hanswers : Answers w c.e c.escape b₁ c.var (w.edgevar c.e c.escape fuel b₁ c.var) :=
    edgevar_answers hunmarked
  unfold Call.run at hstep
  cases hcall : w.edgevar c.e c.escape fuel b₁ c.var with
  | error err =>
    rw [hcall] at hstep
    cases hstep
  | ok res =>
    rw [hcall] at hstep hanswers
    cases hstep
    exact hanswers.1.trans hb₁

def aloneWorld : World := ⟨[⟨[], []⟩, ⟨[], []⟩], [], [], [], [], []⟩

def aloneEdge : Edge := ⟨0, none, [1, 0], [], [], 0, 0, 0⟩

/-- `command = $flags x`, `flags = -g` -/
def ccBindings : Bindings :=
  [(['c'], .str [⟨some ['f'], none⟩, ⟨none, some [' ', 'x']⟩]), (['f'], .str [⟨none, some ['-', 'g']⟩])]

/-- `v = $a`, `a = $b`, `b = $a` -/
def abBindings : Bindings :=
  [(['v'], .str [⟨some ['a'], none⟩]), (['a'], .str [⟨some ['b'], none⟩]),
    (['b'], .str [⟨some ['a'], none⟩])]

end Bootsh.Samu.Manifest
