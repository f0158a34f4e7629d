import Bootsh.Eval.Refine

/-!
Where `evaltree` does what structured commands are to do, and where `-e` ends the shell as the
manual says.
-/
namespace Bootsh.Eval

open Exec

/-! ### Runs that agree -/

/-- What the second run does wherever the first ends clean. -/
def Agrees (env : Env) (x y : Outcome) : Prop :=
  ∀ r env', x = some (r, env') → env'.clean = true → env.clean = true ∧ y = some (r, env')

/-- Rules that differ only in what is watched. -/
structure Rules.Alike (p q : Rules) : Prop where
  watchRet : p.watchRet = q.watchRet
  watchBg : p.watchBg = q.watchBg
  condRet : p.watchRet = false → p.condRet = q.condRet
  condRet_self : ∀ s, p.condRet s s = q.condRet s s
  bgTested : p.watchBg = false → p.bgTested = q.bgTested
  bgTested_false : p.bgTested false = q.bgTested false

theorem Agrees.leaf {env env' : Env} {r : Option Stop}
    (h : env'.clean = true → env.clean = true) : Agrees env (some (r, env')) (some (r, env')) := by
  intro r' env'' hx hclean
  cases hx
  exact ⟨h hclean, rfl⟩

section
variable {p q : Rules} {env : Env} {x y : Exec}

theorem Agrees.handle {k k' : Option Stop → Exec} (h : Agrees env (x env) (y env))
    (hk : ∀ r env, Agrees env (k r env) (k' r env)) :
    Agrees env (Exec.handle x k env) (Exec.handle y k' env) := by
  intro r env' hrun hclean
  unfold Exec.handle at hrun ⊢
  cases hx : x env with
  | none =>
    rw [hx] at hrun
    cases hrun
  | some o =>
    rw [hx] at hrun
    obtain ⟨hmid, hk'⟩ := hk o.1 o.2 r env' hrun hclean
    obtain ⟨hstart, hy⟩ := h o.1 o.2 hx hmid
    rw [hy]
    exact ⟨hstart, hk'⟩

theorem Agrees.child (h : Agrees { env with checks := [] } (x { env with checks := [] })
    (y { env with checks := [] })) : Agrees env (Exec.child x env) (Exec.child y env) := by
  intro r env' hrun hclean
  unfold Exec.child at hrun ⊢
  cases hx : x { env with checks := [] } with
  | none =>
    rw [hx] at hrun
    cases hrun
  | some o =>
    rw [hx] at hrun
    cases hrun
    obtain ⟨hstart, hy⟩ := h o.1 o.2 hx hclean
    rw [hy]
    exact ⟨hstart, rfl⟩

theorem Agrees.condStatus (hpq : p.Alike q) {status : ℕ} {r : Option Stop} :
    Agrees env (condStatus p r status env) (condStatus q r status env) := by
  rcases r with _ | ⟨n | n | (_ | _) | _⟩
  case some.ret.true =>
    intro r env' hrun hclean
    cases hrun
    simp only [Bool.and_eq_true, Bool.or_eq_true, Bool.not_eq_true', beq_iff_eq] at hclean
    refine ⟨hclean.1, ?_⟩
    have hval : q.condRet env.exitstatus status = p.condRet env.exitstatus status := by
      rcases hclean.2 with hwatch | heq
      · rw [hpq.condRet hwatch]
      · rw [heq]
        exact (hpq.condRet_self status).symm
    unfold Bootsh.Eval.condStatus
    rw [hval, hpq.watchRet]
  all_goals exact .leaf fun h => h

theorem sameTrace_runs {x y : Outcome} (h : sameTrace x y = true) :
    ∃ r env r' env', x = some (r, env) ∧ y = some (r', env') ∧ env.trace = env'.trace ∧
      env.clean = true ∧ env'.clean = true := by
  rcases x with _ | ⟨r, env⟩
  case none => cases h
  rcases y with _ | ⟨r', env'⟩
  case none => cases h
  simp only [sameTrace, Bool.and_eq_true, beq_iff_eq] at h
  exact ⟨r, env, r', env', rfl, rfl, h.1.1, h.1.2, h.2⟩

/-- What is left of a pipeline in the background, for the end of its commands. -/
theorem background_run {exec : Executor} {ctx : Ctx} {l : List Node} {r : Option Stop}
    {env' : Env} (h : elements exec { ctx with tested := p.bgTested ctx.tested } env.exitstatus l 0
      env = some (r, env')) :
    background p exec ctx l env = some (none, { env' with
      exitstatus := 0
      clean := env'.clean && (!p.watchBg || !ctx.tested || sameTrace
        (elements exec { ctx with tested := true } env.exitstatus l 0 env)
        (elements exec { ctx with tested := false } env.exitstatus l 0 env)) }) := by
  unfold background
  dsimp only
  rw [h]

/-- The commands of a pipeline do the same in both runs, and so does the pipeline: where it is
watched, it does not matter whether they are tested. -/
theorem Agrees.background (hpq : p.Alike q) {exec exec' : Executor} {ctx : Ctx} {l : List Node}
    (h : ∀ tested, Agrees env (elements exec { ctx with tested } env.exitstatus l 0 env)
      (elements exec' { ctx with tested } env.exitstatus l 0 env)) :
    Agrees env (background p exec ctx l env) (background q exec' ctx l env) := by
  intro r env' hrun hclean
  cases hx : elements exec { ctx with tested := p.bgTested ctx.tested } env.exitstatus l 0 env with
  | none =>
    unfold Bootsh.Eval.background at hrun
    dsimp only at hrun
    rw [hx] at hrun
    cases hrun
  | some o =>
    obtain ⟨r₁, env₁⟩ := o
    rw [background_run hx] at hrun
    cases hrun
    simp only [Bool.and_eq_true] at hclean
    obtain ⟨hclean₁, hwatch⟩ := hclean
    obtain ⟨hstart, hx'⟩ := h _ r₁ env₁ hx hclean₁
    refine ⟨hstart, ?_⟩
    by_cases hfree : (!p.watchBg || !ctx.tested) = true
    · have htested : q.bgTested ctx.tested = p.bgTested ctx.tested := by
        simp only [Bool.or_eq_true, Bool.not_eq_true'] at hfree
        rcases hfree with hbg | hctx
        · rw [hpq.bgTested hbg]
        · rw [hctx, hpq.bgTested_false]
      rw [← htested] at hx'
      rw [background_run hx', ← hpq.watchBg, hfree, Bool.true_or, Bool.true_or]
    · rw [Bool.not_eq_true] at hfree
      rw [hfree, Bool.false_or] at hwatch
      obtain ⟨rt, envt, rf, envf, hrunt, hrunf, htrace, hcleant, hcleanf⟩ := sameTrace_runs hwatch
      obtain ⟨-, hrunt'⟩ := h true rt envt hrunt hcleant
      obtain ⟨-, hrunf'⟩ := h false rf envf hrunf hcleanf
      have hft := elements_forked hrunt
      have hff := elements_forked hrunf
      -- both ends of the commands are the same, but for the status
      have hend : ∀ tested, ∃ r env₂, elements exec { ctx with tested } env.exitstatus l 0 env =
          some (r, env₂) ∧ elements exec' { ctx with tested } env.exitstatus l 0 env =
          some (r, env₂) ∧ env₂.trace = envt.trace ∧ env₂.funcs = env.funcs ∧
          env₂.checks = env.checks ∧ env₂.clean = true := by
        intro tested
        cases tested with
        | true => exact ⟨rt, envt, hrunt, hrunt', rfl, hft.funcs, hft.checks, hcleant⟩
        | false => exact ⟨rf, envf, hrunf, hrunf', htrace.symm, hff.funcs, hff.checks, hcleanf⟩
      obtain ⟨_, _, hrun₁, -, htrace₁, hfuncs₁, hchecks₁, -⟩ := hend (p.bgTested ctx.tested)
      rw [hx] at hrun₁
      cases hrun₁
      obtain ⟨_, env₂, -, hrun₂, htrace₂, hfuncs₂, hchecks₂, hclean₂⟩ :=
        hend (q.bgTested ctx.tested)
      have hsame : sameTrace
          (elements exec' { ctx with tested := true } env.exitstatus l 0 env)
          (elements exec' { ctx with tested := false } env.exitstatus l 0 env) = true := by
        rw [hrunt', hrunf', ← hrunt, ← hrunf]
        exact hwatch
      rw [background_run hrun₂, hsame, hwatch, htrace₁, htrace₂, hfuncs₁, hfuncs₂, hchecks₁,
        hchecks₂, hclean₁, hclean₂]
      simp only [Bool.or_true]

theorem agrees_kept (hpq : p.Alike q) (eflag : Bool) : Kept p q eflag Agrees where
  outOfFuel env r env' h := by cases h
  next env r status hr := .leaf fun h => h
  word env text x y h := h
  defun env funcs := .leaf fun h => h
  bind env x y k k' h hexit hexit' hk := by
    refine h.handle fun r env => ?_
    by_cases hr : r = some .exit
    · rw [hr, hexit, hexit']
      exact .leaf fun h => h
    · exact hk r env hr
  check env ctx x y h := by
    refine h.handle fun r env => ?_
    dsimp only
    split
    · exact .leaf fun h => h
    · split
      · exact .leaf fun h => h
      · exact .leaf fun h => h
  fork env x y h := h.child
  cond env status r r' hr hr' := (Agrees.condStatus hpq).handle fun _ env => .leaf fun h => h
  bg env exec exec' ctx l h := .background hpq h

end

/-- The rules of the code, for what is watched. -/
def code (watchRet watchBg : Bool) : Rules :=
  { condRet := fun _ status => status, bgTested := id, watchRet, watchBg }

theorem code_code (watchRet watchBg : Bool) : (code watchRet watchBg).Code := ⟨rfl, rfl⟩

/-- The run ends, and has met the conditions that are watched. -/
def Clean (x : Outcome) : Prop := ∃ r env, x = some (r, env) ∧ env.clean = true

theorem Clean.intro {x : Outcome} (h : x.map (fun o => o.2.clean) = some true) : Clean x := by
  obtain ⟨o, hx, hclean⟩ := Option.map_eq_some_iff.1 h
  exact ⟨o.1, o.2, hx, hclean⟩

/-- A clean run by one of the two sets of rules is a run by the other. -/
theorem execTree_agree {p q : Rules} (hpq : p.Alike q) (hqp : q.Alike p) {a : Answers}
    {eflag : Bool} {k : ℕ} {ctx : Ctx} {n : Option Node} {env : Env}
    (h : Clean (execTree p a eflag k ctx n env) ∨ Clean (execTree q a eflag k ctx n env)) :
    execTree p a eflag k ctx n env = execTree q a eflag k ctx n env := by
  rcases h with ⟨r, env', hrun, hclean⟩ | ⟨r, env', hrun, hclean⟩
  · have hagree := @Kept.execTree _ _ a _ _ (agrees_kept hpq eflag) k ctx n env
    rw [(hagree r env' hrun hclean).2, hrun]
  · have hagree := @Kept.execTree _ _ a _ _ (agrees_kept hqp eflag) k ctx n env
    rw [(hagree r env' hrun hclean).2, hrun]

/-- A shell that has just started. -/
def init : State :=
  { trace := [], exitstatus := 0, evalskip := none, skipcount := 0, loopnest := 0,
    funcs := fun _ => none }

def Env.init : Env :=
  { trace := [], exitstatus := 0, funcs := fun _ => none, checks := [], clean := true }

theorem init_same : Same 0 init Env.init := ⟨rfl, rfl, rfl, rfl, rfl⟩

def Res.state {α : Type} : Res α → State
  | .ok _ st => st
  | .exend st => st

/-- The words that were run, and the status. -/
def Res.observed (res : Res ℕ) : List Text × ℕ := (res.state.trace, res.state.exitstatus % 256)

def observed (o : Option Stop × Env) : List Text × ℕ := (o.2.trace, o.2.exitstatus % 256)

theorem TreeSim.observed {exits : Bool} {loops : ℕ} {x : Option (Res ℕ)} {y : Outcome}
    (h : TreeSim exits loops x y) : x.map Res.observed = y.map observed := by
  obtain ⟨hsim, hok⟩ := h
  rcases x with _ | (⟨s, st⟩ | st) <;> rcases y with _ | ⟨r, env⟩
  case none.none => rfl
  case some.ok.some =>
    have hended : Ended loops loops s st r env := hsim
    have hs := (hok s st rfl).2
    simp only [Bootsh.Eval.observed, Res.observed, Res.state, Option.map_some, hended.trace, hs,
      hended.status]
  case some.exend.some =>
    simp only [Bootsh.Eval.observed, Res.observed, Res.state, Option.map_some, hsim.2.trace,
      hsim.2.status]
  all_goals exact hsim.elim

/-! ### Jumps -/

/-- A `return` ends the condition of a loop, and the loop, with the status that was last. -/
def structured : Rules :=
  { condRet := fun status _ => status, bgTested := id, watchRet := true, watchBg := false }

theorem structured_alike : structured.Alike (code true false) :=
  ⟨rfl, rfl, by simp [structured], fun _ => rfl, fun _ => rfl, rfl⟩

theorem code_alike : (code true false).Alike structured :=
  ⟨rfl, rfl, by simp [code], fun _ => rfl, fun _ => rfl, rfl⟩

/-- Where each `return` without operand in the condition of a loop comes with the status that the
loop has so far, the code runs the same words as the structured commands and ends with the
same status. -/
theorem evaltree_structured {a : Answers} {eflag : Bool} {k : ℕ} {flags : Flags}
    {n : Option Node} {loops : ℕ} {st : State} {env : Env} (hsame : Same loops st env)
    (hclean : Clean (execTree structured a eflag k ⟨flags.tested, loops⟩ n env) ∨
      Clean (execTree (code true false) a eflag k ⟨flags.tested, loops⟩ n env)) :
    TreeSim flags.exit loops (evaltree a eflag k flags n st)
      (execTree structured a eflag k ⟨flags.tested, loops⟩ n env) := by
  rw [execTree_agree structured_alike code_alike hclean]
  exact (evaltree_sim (code_code true false) k).tree flags n loops st env hsame

/-- The words `a` and `b`, of which `a` fails. -/
def failing : Answers where
  status _ text := if text = ['a'] then 3 else 0
  redirect _ _ := 0
  words _ _ := 0
  casematch _ _ := 0

/-- `f() { while b; do a; return; done; }; f` -/
theorem evaltree_structured_return :
    let f := Node.loop false (.cmd (.word ['b']))
      (.binary .semi (.cmd (.word ['a'])) (.cmd (.return_ none)))
    let n := Node.binary .semi (.defun ['f'] f) (.cmd (.word ['f']))
    (execTree structured failing false 8 ⟨false, 0⟩ (some n) Env.init).map observed =
        some ([['f'], ['b'], ['a']], 3) ∧
      TreeSim false 0 (evaltree failing false 8 {} (some n) init)
        (execTree structured failing false 8 ⟨false, 0⟩ (some n) Env.init) :=
  ⟨by decide +kernel, @evaltree_structured failing false 8 {} _ 0 init Env.init init_same
    (.inl (.intro (by decide +kernel)))⟩

/-- `f() { while a; return; do b; done; }; f` -/
theorem evaltree_not_structured :
    let f := Node.loop false (.binary .semi (.cmd (.word ['a'])) (.cmd (.return_ none)))
      (.cmd (.word ['b']))
    let n := Node.binary .semi (.defun ['f'] f) (.cmd (.word ['f']))
    (evaltree failing false 8 {} (some n) init).map Res.observed = some ([['f'], ['a']], 0) ∧
      (execTree structured failing false 8 ⟨false, 0⟩ (some n) Env.init).map observed =
        some ([['f'], ['a']], 3) ∧
      ¬TreeSim false 0 (evaltree failing false 8 {} (some n) init)
        (execTree structured failing false 8 ⟨false, 0⟩ (some n) Env.init) := by
  intro f n
  have hcode : (evaltree failing false 8 {} (some n) init).map Res.observed =
      some ([['f'], ['a']], 0) := by decide +kernel
  have hstructured :
      (execTree structured failing false 8 ⟨false, 0⟩ (some n) Env.init).map observed =
        some ([['f'], ['a']], 3) := by decide +kernel
  refine ⟨hcode, hstructured, fun h => ?_⟩
  have heq := h.observed
  rw [hcode, hstructured] at heq
  simp at heq

/-! ### `-e` -/

/-- The command fails, and is not tested. -/
def Fails (c : ℕ × Bool) : Prop := c.1 ≠ 0 ∧ c.2 = false

/-- The shell exits at the first command that fails untested, and nowhere else. -/
def ExitsAt (env : Env) (x : Outcome) : Prop :=
  ∀ r env', x = some (r, env') → ∃ checks, env'.checks = env.checks ++ checks ∧
    (r ≠ some .exit → ∀ c ∈ checks, ¬Fails c) ∧
    (r = some .exit → ∃ before c, checks = before ++ [c] ∧ Fails c ∧ ∀ c ∈ before, ¬Fails c)

/-- Nothing is looked at. -/
theorem ExitsAt.stays {env : Env} {x : Outcome}
    (h : ∀ r env', x = some (r, env') → r ≠ some .exit ∧ env'.checks = env.checks) :
    ExitsAt env x := by
  intro r env' hrun
  obtain ⟨hr, hchecks⟩ := h r env' hrun
  exact ⟨[], by rw [hchecks, List.append_nil], fun _ c hc => (List.not_mem_nil hc).elim,
    fun hexit => absurd hexit hr⟩

theorem Forked.stays {env env' : Env} {r : Option Stop} (h : Forked env r env') :
    r ≠ some .exit ∧ env'.checks = env.checks := by
  obtain ⟨rfl, -, hchecks⟩ := h
  exact ⟨by simp, hchecks⟩

theorem ExitsAt.handle {env : Env} {x : Exec} {k : Option Stop → Exec} (h : ExitsAt env (x env))
    (hexit : ∀ env, k (some .exit) env = some (some .exit, env))
    (hk : ∀ r env, r ≠ some .exit → ExitsAt env (k r env)) :
    ExitsAt env (Exec.handle x k env) := by
  intro r env' hrun
  unfold Exec.handle at hrun
  cases hx : x env with
  | none =>
    rw [hx] at hrun
    cases hrun
  | some o =>
    obtain ⟨r₁, env₁⟩ := o
    rw [hx] at hrun
    dsimp only at hrun
    obtain ⟨checks, hchecks, hgo, hstop⟩ := h r₁ env₁ hx
    by_cases hr : r₁ = some .exit
    · rw [hr, hexit] at hrun
      cases hrun
      exact ⟨checks, hchecks, fun hne => absurd rfl hne, fun _ => hstop hr⟩
    · obtain ⟨checks', hchecks', hgo', hstop'⟩ := hk r₁ env₁ hr r env' hrun
      refine ⟨checks ++ checks', by rw [hchecks', hchecks, List.append_assoc], ?_, ?_⟩
      · intro hne c hc
        rcases List.mem_append.1 hc with hc | hc
        · exact hgo hr c hc
        · exact hgo' hne c hc
      · intro he
        obtain ⟨before, c, rfl, hfails, hbefore⟩ := hstop' he
        refine ⟨checks ++ before, c, (List.append_assoc _ _ _).symm, hfails, ?_⟩
        intro c hc
        rcases List.mem_append.1 hc with hc | hc
        · exact hgo hr c hc
        · exact hbefore c hc

theorem ExitsAt.checked {env : Env} {ctx : Ctx} {x : Exec} (h : ExitsAt env (x env)) :
    ExitsAt env (Exec.checked true ctx x env) := by
  refine h.handle (fun _ => rfl) fun r env hr => ?_
  rw [if_neg hr]
  dsimp only
  intro r' env' hrun
  refine ⟨[(env.exitstatus, ctx.tested)], ?_⟩
  split at hrun
  case isTrue hfails =>
    cases hrun
    refine ⟨rfl, fun hne => absurd rfl hne, fun _ => ⟨[], _, rfl, ?_, by simp⟩⟩
    simpa [Fails, and_comm] using hfails
  case isFalse hpass =>
    cases hrun
    refine ⟨rfl, fun _ c hc => ?_, fun he => absurd he hr⟩
    obtain rfl := List.mem_singleton.1 hc
    simpa [Fails, and_comm] using hpass

theorem condStatus_stays {p : Rules} {env env' : Env} {status : ℕ} {r r' : Option Stop}
    (h : condStatus p r status env = some (r', env')) : env'.checks = env.checks := by
  rcases r with _ | ⟨n | n | (_ | _) | _⟩
  all_goals
    cases h
    rfl

theorem exitsAt_kept (p : Rules) : Kept p p true fun env x _ => ExitsAt env x where
  outOfFuel env r env' h := by cases h
  next env r status hr := .stays fun r' env' h => by
    cases h
    exact ⟨hr, rfl⟩
  word env text x y h := h
  defun env funcs := .stays fun r' env' h => by
    cases h
    exact ⟨by simp, rfl⟩
  bind env x y k k' h hexit _ hk := h.handle hexit hk
  check env ctx x y h := h.checked
  fork env x y _ := .stays fun r env' h => (child_forked h).stays
  cond env status r r' hr hr' := .stays fun r₁ env₁ h => by
    unfold handle at h
    cases hx : condStatus p r status env with
    | none =>
      rw [hx] at h
      cases h
    | some o =>
      rw [hx] at h
      cases h
      exact ⟨hr', condStatus_stays hx⟩
  bg env exec exec' ctx l _ := .stays fun r env' h => by
    unfold background at h
    dsimp only at h
    split at h
    case h_1 => cases h
    case h_2 r₁ env₁ hx =>
      cases h
      exact ⟨by simp, (elements_forked hx).checks⟩

/-- What the manual says: no command of a pipeline in the background is tested by what is around
it. -/
def manual : Rules :=
  { condRet := fun _ status => status, bgTested := fun _ => false, watchRet := false,
    watchBg := true }

theorem manual_alike : manual.Alike (code false true) :=
  ⟨rfl, rfl, fun _ => rfl, fun _ => rfl, by simp [manual], rfl⟩

theorem code_alike_manual : (code false true).Alike manual :=
  ⟨rfl, rfl, fun _ => rfl, fun _ => rfl, by simp [code], rfl⟩

end Bootsh.Eval
