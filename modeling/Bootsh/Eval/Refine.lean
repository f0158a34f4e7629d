import Bootsh.Eval.Evaltree
import Bootsh.Eval.Rules

/-!
`evaltree` does what the structured rules say, where the two that are left open are set as the
code has them: with the same fuel, both come to the same end or to none.
-/
namespace Bootsh.Eval

open Exec

/-! ### Corresponding states -/

/-- Nothing is being skipped. -/
structure Same (loops : ℕ) (st : State) (env : Env) : Prop where
  trace : st.trace = env.trace
  status : st.exitstatus = env.exitstatus
  funcs : st.funcs = env.funcs
  skip : st.evalskip = none
  loopnest : st.loopnest = loops

/-- `evalskip` and `skipcount` stand for a jump, which leaves no more loops than there are. -/
def Skips (loops : ℕ) : Option Stop → State → Prop
  | none, st => st.evalskip = none
  | some (.brk n), st => st.evalskip = some .brk ∧ st.skipcount = n ∧ 0 < n ∧ n ≤ loops
  | some (.cont n), st => st.evalskip = some .cont ∧ st.skipcount = n ∧ 0 < n ∧ n ≤ loops
  | some (.ret false), st => st.evalskip = some .func
  | some (.ret true), st => st.evalskip = some .funcdef
  | some .exit, _ => False

/-- The function has returned `s`. -/
structure Ended (nest loops s : ℕ) (st : State) (r : Option Stop) (env : Env) : Prop where
  status : env.exitstatus = s
  trace : st.trace = env.trace
  funcs : st.funcs = env.funcs
  loopnest : st.loopnest = nest
  skips : Skips loops r st

/-- The process ends. -/
structure Exited (st : State) (env : Env) : Prop where
  trace : st.trace = env.trace
  status : st.exitstatus % 256 = env.exitstatus % 256

/-- The results of a function. It may end the process in any case if `exits` holds, and else
for an exit of the shell. -/
def Sim (exits : Bool) (nest loops : ℕ) :
    Option (Res ℕ) → Option (Option Stop × Env) → Prop
  | none, none => True
  | some (.exend st), some (r, env) => (exits = true ∨ r = some .exit) ∧ Exited st env
  | some (.ok s st), some (r, env) => Ended nest loops s st r env
  | _, _ => False

/-- The results of `evaltree`, which only returns where the process goes on. -/
structure TreeSim (exits : Bool) (loops : ℕ) (x : Option (Res ℕ))
    (y : Option (Option Stop × Env)) : Prop where
  sim : Sim exits loops loops x y
  ok : ∀ s st, x = some (.ok s st) → exits = false ∧ st.exitstatus = s

/-- The results of the `switch`: with `checkexit`, what is left is to look at the status. -/
def NodeSim (eflag : Bool) (ctx : Ctx) (exits : Bool) :
    Option (Res (ℕ × Bool)) → Option (Option Stop × Env) → Prop
  | none, none => True
  | some (.exend st), some (r, env) => (exits = true ∨ r = some .exit) ∧ Exited st env
  | some (.ok (s, checkexit) st), x => ∃ r env, Ended ctx.loops ctx.loops s st r env ∧
      x = if checkexit then checked eflag ctx (ends r) env else ends r env
  | _, _ => False

structure EvalSim (eval : Evaluator) (exec : Executor) : Prop where
  tree : ∀ flags n loops st env, Same loops st env →
    TreeSim flags.exit loops (eval flags n st) (exec ⟨flags.tested, loops⟩ n env)
  blank : ∀ flags ctx st env, flags.exit = false →
    eval flags none st = none ∧ exec ctx none env = none ∨
      eval flags none st = some (.ok st.exitstatus st) ∧ exec ctx none env = some (none, env)

theorem Ended.same {loops s : ℕ} {st : State} {env : Env} (h : Ended loops loops s st none env)
    (hs : st.exitstatus = s) : Same loops st env :=
  ⟨h.trace, hs.trans h.status.symm, h.funcs, h.skips, h.loopnest⟩

theorem Ended.ne_exit {nest loops s : ℕ} {st : State} {r : Option Stop} {env : Env}
    (h : Ended nest loops s st r env) : r ≠ some .exit := by
  rintro rfl
  exact h.skips

/-- Nothing is skipped after it if and only if there is no jump. -/
theorem Ended.isSome {nest loops s : ℕ} {st : State} {r : Option Stop} {env : Env}
    (h : Ended nest loops s st r env) : st.evalskip.isSome = r.isSome := by
  have hskips := h.skips
  cases r with
  | none =>
    have : st.evalskip = none := hskips
    simp [this]
  | some s =>
    cases s with
    | brk n => simp [hskips.1]
    | cont n => simp [hskips.1]
    | ret last =>
      cases last with
      | false =>
        have : st.evalskip = some .func := hskips
        simp [this]
      | true =>
        have : st.evalskip = some .funcdef := hskips
        simp [this]
    | exit => exact hskips.elim

/-- Where a function may end the process, it need not. -/
theorem Sim.weaken {exits : Bool} {nest loops : ℕ} {x : Option (Res ℕ)}
    {y : Option (Option Stop × Env)} (h : Sim false nest loops x y) : Sim exits nest loops x y := by
  rcases x with _ | (⟨s, st⟩ | st) <;> rcases y with _ | ⟨r, env⟩
  case some.exend.some => exact ⟨.inr (h.1.resolve_left Bool.false_ne_true), h.2⟩
  all_goals exact h

/-! ### Sequences -/

section
variable {β : Type} {R : Option (Res β) → Option (Option Stop × Env) → Prop}
  {m : EvalM ℕ} {f : ℕ → EvalM β} {x : Exec} {k : Option Stop → Exec} {exits : Bool}
  {nest loops : ℕ} {st : State} {env : Env} {y z : Option (Option Stop × Env)}

/-- What follows a function, for all ends that it may come to. -/
theorem Sim.bind (h : Sim exits nest loops (m st) y) (hnone : y = none → R none z)
    (hexend : ∀ st' r env', y = some (r, env') → (exits = true ∨ r = some .exit) →
      Exited st' env' → R (some (.exend st')) z)
    (hok : ∀ s st' r env', m st = some (.ok s st') → y = some (r, env') →
      Ended nest loops s st' r env' → R (f s st') z) : R ((m >>= f) st) z := by
  cases hm : m st with
  | none =>
    rw [hm] at h
    rw [bind_none hm]
    cases y with
    | none => exact hnone rfl
    | some y => exact h.elim
  | some res =>
    rw [hm] at h
    cases y with
    | none => cases res <;> exact h.elim
    | some y =>
      cases res with
      | ok s st' =>
        rw [bind_ok hm]
        exact hok s st' y.1 y.2 hm rfl h
      | exend st' =>
        rw [bind_exend hm]
        exact hexend st' y.1 y.2 rfl h.1 h.2

/-- The relation holds where the fuel runs out, and where the shell exits. -/
structure Closed (R : Option (Res β) → Option (Option Stop × Env) → Prop) : Prop where
  none : R none none
  exend : ∀ {st env}, Exited st env → R (some (.exend st)) (some (some .exit, env))

theorem sim_closed (exits : Bool) (nest loops : ℕ) : Closed (Sim exits nest loops) :=
  ⟨trivial, fun h => ⟨.inr rfl, h⟩⟩

theorem nodeSim_closed (eflag : Bool) (ctx : Ctx) (exits : Bool) :
    Closed (NodeSim eflag ctx exits) := ⟨trivial, fun h => ⟨.inr rfl, h⟩⟩

/-- The same where the process goes on, and where `k` leaves an exit of the shell as it is. -/
theorem Sim.bind_handle (hR : Closed R) (h : Sim false nest loops (m st) (x env))
    (hexit : ∀ env, k (some .exit) env = some (some .exit, env))
    (hok : ∀ s st' r env', m st = some (.ok s st') → Ended nest loops s st' r env' →
      R (f s st') (k r env')) : R ((m >>= f) st) (handle x k env) := by
  unfold handle
  apply h.bind
  · intro hx
    rw [hx]
    exact hR.none
  · intro st' r env' hx hr hexited
    obtain rfl := hr.resolve_left Bool.false_ne_true
    rw [hx]
    dsimp only
    rw [hexit]
    exact hR.exend hexited
  · intro s st' r env' hm hx hended
    rw [hx]
    exact hok s st' r env' hm hended

/-- A call of `evaltree` and what follows. -/
theorem bind_handle (hR : Closed R) (h : TreeSim false loops (m st) (x env))
    (hexit : ∀ env, k (some .exit) env = some (some .exit, env))
    (hok : ∀ s st' r env', Ended loops loops s st' r env' → st'.exitstatus = s →
      R (f s st') (k r env')) : R ((m >>= f) st) (handle x k env) :=
  h.sim.bind_handle hR hexit fun s st' r env' hm hended => hok s st' r env' hended (h.ok s st' hm).2

/-- The same for what is only done where there is no jump. -/
theorem bind_andThen {g : Env → Exec} (hR : Closed R) (h : TreeSim false loops (m st) (x env))
    (hok : ∀ s st' env', Ended loops loops s st' none env' → Same loops st' env' →
      R (f s st') (g env' env'))
    (hstop : ∀ s st' r env', Ended loops loops s st' (some r) env' →
      R (f s st') (some (some r, env'))) : R ((m >>= f) st) (andThen x g env) := by
  apply bind_handle hR h fun _ => rfl
  intro s st' r env' hended hs
  cases r with
  | none => exact hok s st' env' hended (hended.same hs)
  | some r => exact hstop s st' r env' hended

/-- The end of a `switch` without `checkexit`. -/
theorem Sim.node {eflag : Bool} {ctx : Ctx} (h : Sim exits ctx.loops ctx.loops (m st) y) :
    NodeSim eflag ctx exits ((m >>= fun status => pure (status, false)) st) y := by
  apply h.bind
  · rintro rfl
    exact trivial
  · rintro st' r env' rfl hr hexited
    exact ⟨hr, hexited⟩
  · rintro s st' r env' - rfl hended
    exact ⟨r, env', hended, rfl⟩

/-- The end of a `switch` with `checkexit`. -/
theorem Sim.checked {eflag : Bool} {ctx : Ctx} (h : Sim exits ctx.loops ctx.loops (m st) (x env)) :
    NodeSim eflag ctx exits ((m >>= fun status => pure (status, true)) st)
      (Exec.checked eflag ctx x env) := by
  unfold Exec.checked handle
  apply h.bind
  · intro hx
    rw [hx]
    exact trivial
  · intro st' r env' hx hr hexited
    rw [hx]
    dsimp only
    split
    · exact ⟨.inr rfl, hexited⟩
    case isFalse hne =>
      have hexits := hr.resolve_right hne
      split
      · exact ⟨.inr rfl, hexited.trace, hexited.status⟩
      · exact ⟨.inl hexits, hexited.trace, hexited.status⟩
  · intro s st' r env' _ hx hended
    rw [hx]
    exact ⟨r, env', hended, rfl⟩

end

/-! ### Loops -/

/-- What `skiploop` does to the state after a command in a loop. -/
structure SkipLoop (loops : ℕ) (r : Option Stop) (skip : Option Skip) (st st' : State) : Prop where
  trace : st'.trace = st.trace
  status : st'.exitstatus = st.exitstatus
  funcs : st'.funcs = st.funcs
  loopnest : st'.loopnest = st.loopnest
  isSome : skip.isSome = r.isSome
  func : skip = some .func ↔ r = some (.ret false)
  again : Stop.leave r = none → leaves skip = false ∧ st'.evalskip = none
  left : ∀ r', Stop.leave r = some r' → leaves skip = true ∧ Skips loops r' st'

theorem skiploop_ended {loops s : ℕ} {st : State} {r : Option Stop} {env : Env}
    (h : Ended (loops + 1) (loops + 1) s st r env) :
    ∃ skip st', skiploop st = some (.ok skip st') ∧ SkipLoop loops r skip st st' := by
  have hskips := h.skips
  cases r with
  | none =>
    have hskip : st.evalskip = none := hskips
    refine ⟨none, st, by simp [skiploop, hskip], rfl, rfl, rfl, rfl, rfl, by simp, ?_, ?_⟩
    · exact fun _ => ⟨rfl, hskip⟩
    · intro r' hr'
      cases hr'
  | some j =>
    cases j with
    | exit => exact hskips.elim
    | ret last =>
      cases last with
      | false =>
        have hskip : st.evalskip = some .func := hskips
        refine ⟨some .func, st, by simp [skiploop, hskip], rfl, rfl, rfl, rfl, rfl, by simp, ?_, ?_⟩
        · intro hleave
          cases hleave
        · intro r' hr'
          obtain rfl := Option.some.inj hr'
          exact ⟨rfl, hskip⟩
      | true =>
        have hskip : st.evalskip = some .funcdef := hskips
        refine ⟨some .funcdef, st, by simp [skiploop, hskip], rfl, rfl, rfl, rfl, rfl, by simp,
          ?_, ?_⟩
        · intro hleave
          cases hleave
        · intro r' hr'
          obtain rfl := Option.some.inj hr'
          exact ⟨rfl, hskip⟩
    | brk n =>
      obtain ⟨hskip, hcount, hpos, hle⟩ := hskips
      by_cases hn : n ≤ 1
      · have hzero : st.skipcount - 1 = 0 := by omega
        refine ⟨some .brk, { st with skipcount := st.skipcount - 1, evalskip := none },
          by simp [skiploop, hskip, hzero], rfl, rfl, rfl, rfl, rfl, by simp, ?_, ?_⟩
        · intro hleave
          simp [Stop.leave] at hleave
        · intro r' hr'
          simp only [Stop.leave, hn, if_true, Option.some.injEq] at hr'
          subst hr'
          exact ⟨rfl, rfl⟩
      · have hzero : st.skipcount - 1 ≠ 0 := by omega
        refine ⟨some .brk, { st with skipcount := st.skipcount - 1 },
          by simp [skiploop, hskip, hzero], rfl, rfl, rfl, rfl, rfl, by simp, ?_, ?_⟩
        · intro hleave
          simp [Stop.leave] at hleave
        · intro r' hr'
          simp only [Stop.leave, hn, if_false, Option.some.injEq] at hr'
          subst hr'
          exact ⟨rfl, hskip, by simp [hcount], by omega, by omega⟩
    | cont n =>
      obtain ⟨hskip, hcount, hpos, hle⟩ := hskips
      by_cases hn : n ≤ 1
      · have hzero : st.skipcount - 1 = 0 := by omega
        refine ⟨some .cont, { st with skipcount := st.skipcount - 1, evalskip := none },
          by simp [skiploop, hskip, hzero], rfl, rfl, rfl, rfl, rfl, by simp, ?_, ?_⟩
        · exact fun _ => ⟨rfl, rfl⟩
        · intro r' hr'
          simp [Stop.leave, hn] at hr'
      · have hzero : st.skipcount - 1 ≠ 0 := by omega
        refine ⟨some .brk, { st with skipcount := st.skipcount - 1 },
          by simp [skiploop, hskip, hzero], rfl, rfl, rfl, rfl, rfl, by simp, ?_, ?_⟩
        · intro hleave
          simp [Stop.leave, hn] at hleave
        · intro r' hr'
          simp only [Stop.leave, hn, if_false, Option.some.injEq] at hr'
          subst hr'
          exact ⟨rfl, hskip, by simp [hcount], by omega, by omega⟩

section
variable {loops s : ℕ} {r r' : Option Stop} {skip : Option Skip} {st st' : State} {env : Env}

/-- There is another round. -/
theorem SkipLoop.same (h : SkipLoop loops r skip st st')
    (hended : Ended (loops + 1) (loops + 1) s st r env) (hs : st.exitstatus = s)
    (hleave : Stop.leave r = none) : Same (loops + 1) st' env :=
  ⟨h.trace.trans hended.trace, h.status.trans (hs.trans hended.status.symm),
    h.funcs.trans hended.funcs, (h.again hleave).2, h.loopnest.trans hended.loopnest⟩

/-- The loop ends, with a status of its own. -/
theorem SkipLoop.ended (h : SkipLoop loops r skip st st')
    (hended : Ended (loops + 1) (loops + 1) s st r env) (hleave : Stop.leave r = some r')
    (status : ℕ) (clean : Bool) :
    Ended (loops + 1) loops status st' r' { env with exitstatus := status, clean := clean } :=
  ⟨rfl, h.trace.trans hended.trace, h.funcs.trans hended.funcs,
    h.loopnest.trans hended.loopnest, (h.left r' hleave).2⟩

theorem Skips.congr (h : Skips loops r st) (hskip : st'.evalskip = st.evalskip)
    (hcount : st'.skipcount = st.skipcount) : Skips loops r st' := by
  rcases r with _ | ⟨n | n | (_ | _) | _⟩
  case some.exit => exact h.elim
  all_goals simpa only [Skips, hskip, hcount] using h

theorem Skips.mono {loops' : ℕ} (h : Skips loops r st) (hle : loops ≤ loops') :
    Skips loops' r st := by
  rcases r with _ | ⟨n | n | (_ | _) | _⟩
  case some.brk | some.cont => exact ⟨h.1, h.2.1, h.2.2.1, h.2.2.2.trans hle⟩
  all_goals exact h

end

variable {eval : Evaluator} {exec : Executor} {p : Rules} {flags : Flags} {loops : ℕ} {st : State}
  {env : Env}

theorem evalloopFrom_sim (hE : EvalSim eval exec) (hp : p.condRet = fun _ s => s) {until_ : Bool}
    {ch1 ch2 : Node} {k status : ℕ} (hsame : Same (loops + 1) st env) :
    Sim false (loops + 1) loops (evalloopFrom eval flags until_ ch1 ch2 k status st)
      (loop p exec ⟨flags.tested, loops⟩ until_ ch1 ch2 k status env) := by
  induction k generalizing status st env with
  | zero => exact trivial
  | succ k ih =>
    rw [evalloopFrom, loop]
    apply bind_handle (sim_closed _ _ _)
      (hE.tree { tested := true } (some ch1) (loops + 1) st env hsame)
    · exact fun _ => rfl
    intro s st₁ r env₁ hended hs
    obtain ⟨skip, st₂, hskip, h⟩ := skiploop_ended hended
    rw [bind_ok hskip]
    cases r with
    | none =>
      have hnone : skip = none := Option.isNone_iff_eq_none.1 (by simpa using h.isSome)
      subst hnone
      simp only [reduceCtorEq, if_false, Option.isSome_none, Bool.false_eq_true]
      rw [← hended.status]
      have hsame₂ : Same (loops + 1) st₂ env₁ := h.same hended hs rfl
      split
      case isTrue hstop =>
        exact ⟨rfl, hsame₂.trace, hsame₂.funcs, hsame₂.loopnest, hsame₂.skip⟩
      case isFalse hgo =>
        apply bind_handle (sim_closed _ _ _)
          (hE.tree flags.onlyTested (some ch2) (loops + 1) st₂ env₁ hsame₂)
        · exact fun _ => rfl
        intro s' st₃ r env₃ hended' hs'
        obtain ⟨skip', st₄, hskip', h'⟩ := skiploop_ended hended'
        rw [bind_ok hskip', ← hended'.status]
        cases hleave : Stop.leave r with
        | none =>
          rw [(h'.again hleave).1]
          exact ih (h'.same hended' hs' hleave)
        | some r' =>
          rw [(h'.left r' hleave).1]
          exact h'.ended hended' hleave env₃.exitstatus env₃.clean
    | some j =>
      have hsome : skip.isSome = true := h.isSome
      dsimp only
      rw [if_pos hsome]
      cases hleave : Stop.leave (some j) with
      | none =>
        have hfunc : skip ≠ some .func := by
          intro hf
          obtain rfl := Option.some.inj (h.func.1 hf)
          cases hleave
        rw [(h.again hleave).1, if_neg hfunc]
        exact ih (h.same hended hs hleave)
      | some r' =>
        rw [(h.left r' hleave).1, if_pos rfl]
        have hend : ∀ status' clean, Sim false (loops + 1) loops (some (.ok status' st₂))
            (some (r', { env₁ with exitstatus := status', clean := clean })) :=
          fun status' clean => h.ended hended hleave status' clean
        -- only a `return` with an operand gives the loop its status
        cases j with
        | exit => exact absurd rfl hended.ne_exit
        | brk n =>
          rw [if_neg (by simp [h.func])]
          exact hend status env₁.clean
        | cont n =>
          rw [if_neg (by simp [h.func])]
          exact hend status env₁.clean
        | ret last =>
          cases last with
          | false =>
            rw [if_pos (h.func.2 rfl), ← hended.status]
            exact hend env₁.exitstatus env₁.clean
          | true =>
            rw [if_neg (by simp [h.func])]
            have hval : p.condRet env₁.exitstatus status = status := by rw [hp]
            change Sim false (loops + 1) loops (some (.ok status st₂)) (some (r', { env₁ with
              exitstatus := p.condRet env₁.exitstatus status
              clean := env₁.clean && (!p.watchRet || env₁.exitstatus == status) }))
            rw [hval]
            exact hend status _

/-- Around the loop, `loopnest` is one more. -/
theorem inLoop_sim {m : EvalM ℕ} {x : Exec} (hsame : Same loops st env)
    (h : ∀ st, Same (loops + 1) st env → Sim false (loops + 1) loops (m st) (x env)) :
    Sim false loops loops (inLoop m st) (x env) := by
  have h := h { st with loopnest := st.loopnest + 1 }
    ⟨hsame.trace, hsame.status, hsame.funcs, hsame.skip, congrArg (· + 1) hsame.loopnest⟩
  unfold inLoop
  rw [@bind_ok _ _ (modify _) _ _ _ _ rfl]
  apply h.bind
  · intro hx
    rw [hx]
    exact trivial
  · intro st' r env' hx hr hexited
    rw [hx]
    exact ⟨hr, hexited⟩
  · intro s st' r env' _ hx hended
    rw [hx]
    refine ⟨hended.status, hended.trace, hended.funcs, ?_, hended.skips.congr rfl rfl⟩
    have hnest := hended.loopnest
    change st'.loopnest - 1 = loops
    omega

theorem evalforFrom_sim (hE : EvalSim eval exec) {body : Node} {n status : ℕ}
    (hsame : Same (loops + 1) st env) :
    Sim false (loops + 1) loops (evalforFrom eval flags body n status st)
      (forLoop exec ⟨flags.tested, loops⟩ body n status env) := by
  induction n generalizing status st env with
  | zero => exact ⟨rfl, hsame.trace, hsame.funcs, hsame.loopnest, hsame.skip⟩
  | succ n ih =>
    rw [evalforFrom, forLoop]
    apply bind_handle (sim_closed _ _ _)
      (hE.tree flags.onlyTested (some body) (loops + 1) st env hsame)
    · exact fun _ => rfl
    intro s st₁ r env₁ hended hs
    obtain ⟨skip, st₂, hskip, h⟩ := skiploop_ended hended
    rw [bind_ok hskip, ← hended.status]
    cases hleave : Stop.leave r with
    | none =>
      rw [(h.again hleave).1]
      exact ih (h.same hended hs hleave)
    | some r' =>
      rw [(h.left r' hleave).1]
      exact h.ended hended hleave env₁.exitstatus env₁.clean

/-! ### Child processes -/

/-- What a child does does not matter, but for its trace and its status. -/
theorem forkshell_sim {m : EvalM ℕ} {x : Exec} (hsame : Same loops st env)
    (h : TreeSim true loops (m st) (x { env with checks := [] })) :
    forkshell m st = none ∧ child x env = none ∨
      ∃ s st' env', forkshell m st = some (.ok s st') ∧ child x env = some (none, env') ∧
        Ended loops loops s st' none env' ∧ st'.exitstatus = st.exitstatus := by
  have hsim := h.sim
  unfold forkshell child
  cases hm : m st with
  | none =>
    rw [hm] at hsim
    cases hx : x { env with checks := [] } with
    | none => exact .inl ⟨rfl, rfl⟩
    | some y =>
      rw [hx] at hsim
      exact hsim.elim
  | some res =>
    rw [hm] at hsim
    cases hx : x { env with checks := [] } with
    | none =>
      rw [hx] at hsim
      cases res <;> exact hsim.elim
    | some y =>
      rw [hx] at hsim
      cases res with
      | ok s st' => cases (h.ok s st' hm).1
      | exend st' =>
        exact .inr ⟨_, _, _, rfl, rfl, ⟨hsim.2.status.symm, hsim.2.trace, hsame.funcs,
          hsame.loopnest, hsame.skip⟩, rfl⟩

/-- A subshell in its process. -/
theorem subshell_sim {a : Answers} (hE : EvalSim eval exec) (hexit : flags.exit = true)
    {redirect : ℕ} {n : Node} (hsame : Same loops st env) :
    TreeSim true loops (subshell a eval flags redirect n st)
      (inSubshell a exec ⟨flags.tested, loops⟩ redirect n env) := by
  unfold subshell inSubshell
  rw [@bind_ok _ _ get _ _ _ _ rfl]
  rw [hsame.trace]
  by_cases herr : a.redirect env.trace redirect ≠ 0
  · rw [if_pos herr, if_pos herr]
    refine ⟨⟨.inl rfl, hsame.trace, rfl⟩, ?_⟩
    intro s st' hok
    cases hok
  · rw [if_neg herr, if_neg herr, ← hexit]
    exact hE.tree flags (some n) loops st env hsame

/-- The end of a child, and of its parent with it. -/
theorem child_sim {m : EvalM ℕ} {x : Exec}
    (h : TreeSim true loops (m st) (x { env with checks := [] })) :
    Sim true loops loops (m st) (child x env) := by
  have hsim := h.sim
  unfold child
  cases hm : m st with
  | none =>
    rw [hm] at hsim
    cases hx : x { env with checks := [] } with
    | none => exact trivial
    | some y =>
      rw [hx] at hsim
      exact hsim.elim
  | some res =>
    rw [hm] at hsim
    cases hx : x { env with checks := [] } with
    | none =>
      rw [hx] at hsim
      cases res <;> exact hsim.elim
    | some y =>
      rw [hx] at hsim
      cases res with
      | ok s st' => cases (h.ok s st' hm).1
      | exend st' =>
        refine ⟨.inl rfl, hsim.2.trace, ?_⟩
        rw [hsim.2.status]
        exact (Nat.mod_mod _ _).symm

theorem Same.noChecks (h : Same loops st env) : Same loops st { env with checks := [] } :=
  ⟨h.trace, h.status, h.funcs, h.skip, h.loopnest⟩

theorem evalsubshell_fg_sim {a : Answers} (hE : EvalSim eval exec) {redirect : ℕ} {n : Node}
    (hsame : Same loops st env) :
    Sim flags.exit loops loops (evalsubshell a eval flags false redirect n st)
      (execSubshell a exec ⟨flags.tested, loops⟩ redirect n env) := by
  unfold evalsubshell
  cases hexit : flags.exit with
  | true => exact child_sim (subshell_sim hE hexit hsame.noChecks)
  | false =>
    have hbody := @subshell_sim _ _ { exit := true, tested := flags.tested && !false } _ _ _ a hE
      rfl redirect n hsame.noChecks
    rw [Bool.not_false, Bool.and_true] at hbody
    rw [if_neg (by simp), Bool.not_false, Bool.and_true]
    rcases forkshell_sim hsame hbody with ⟨hfork, hx⟩ | ⟨s, st', env', hfork, hx, hended, -⟩
    · rw [bind_none hfork, execSubshell, hx]
      exact trivial
    · rw [bind_ok hfork, execSubshell, hx]
      exact hended

/-- A subshell in the background is tested by nothing, and has the status 0. -/
theorem evalsubshell_bg_sim {a : Answers} (hE : EvalSim eval exec) {redirect : ℕ} {n : Node}
    (hsame : Same loops st env) :
    Sim flags.exit loops loops (evalsubshell a eval flags true redirect n st)
      (andThen (execSubshell a exec ⟨false, loops⟩ redirect n) (fun _ => setStatus 0) env) := by
  unfold evalsubshell
  have hbody := @subshell_sim _ _ { exit := true, tested := flags.tested && !true } _ _ _ a hE
    rfl redirect n hsame.noChecks
  rw [Bool.not_true, Bool.and_false] at hbody
  rw [if_neg (by simp), Bool.not_true, Bool.and_false]
  unfold andThen handle execSubshell
  rcases forkshell_sim hsame hbody with ⟨hfork, hx⟩ | ⟨s, st', env', hfork, hx, hended, -⟩
  · rw [bind_none hfork, hx]
    exact trivial
  · rw [bind_ok hfork, hx]
    exact ⟨rfl, hended.trace, hended.funcs, hended.loopnest, hended.skips⟩

theorem evalpipeFrom_sim (hE : EvalSim eval exec) {l : List Node} {last status : ℕ}
    (hsame : Same loops st { env with exitstatus := last }) :
    Sim false loops loops (evalpipeFrom eval flags l status st)
      (elements exec ⟨flags.tested, loops⟩ last l status env) := by
  induction l generalizing status st env with
  | nil => exact ⟨rfl, hsame.trace, hsame.funcs, hsame.loopnest, hsame.skip⟩
  | cons n rest ih =>
    rw [evalpipeFrom, elements]
    unfold andThen handle
    dsimp only [setStatus]
    have hchild := hE.tree { flags with exit := true } (some n) loops st _ hsame.noChecks
    rcases forkshell_sim hsame hchild with ⟨hfork, hx⟩ | ⟨s, st', env', hfork, hx, hended, hlast⟩
    · rw [bind_none hfork, hx]
      exact trivial
    · rw [bind_ok hfork, hx, ← hended.status]
      exact ih ⟨hended.trace, hlast.trans hsame.status, hended.funcs, hended.skips, hended.loopnest⟩

/-- The elements, for the status 0 before the first. -/
theorem evalpipe_fg_sim (hE : EvalSim eval exec) {l : List Node} (hsame : Same loops st env) :
    Sim flags.exit loops loops (evalpipe eval flags false l st)
      (elements exec ⟨flags.tested, loops⟩ env.exitstatus l 0 env) := by
  unfold evalpipe
  apply (@evalpipeFrom_sim _ _ flags _ _ _ hE l env.exitstatus 0 hsame).bind
  · intro hx
    rw [hx]
    exact trivial
  · intro st' r env' hx hr hexited
    rw [hx]
    exact ⟨.inr (hr.resolve_left Bool.false_ne_true), hexited⟩
  · intro s st' r env' _ hx hended
    rw [hx]
    exact hended

/-- The elements are tested as the pipeline is, and the status is 0. -/
theorem evalpipe_bg_sim (hE : EvalSim eval exec) (hp : p.bgTested = id) {l : List Node}
    (hsame : Same loops st env) :
    Sim flags.exit loops loops (evalpipe eval flags true l st)
      (background p exec ⟨flags.tested, loops⟩ l env) := by
  unfold evalpipe background
  rw [hp]
  apply (@evalpipeFrom_sim _ _ flags _ _ _ hE l env.exitstatus 0 hsame).bind
  · intro hx
    dsimp only [id]
    rw [hx]
    exact trivial
  · intro st' r env' hx hr _
    obtain rfl := hr.resolve_left Bool.false_ne_true
    cases (elements_forked hx).next
  · intro s st' r env' _ hx hended
    dsimp only [id]
    rw [hx]
    obtain rfl := (elements_forked hx).next
    exact ⟨rfl, hended.trace, hended.funcs, hended.loopnest, hended.skips⟩

/-! ### Simple commands -/

theorem evalbltin_sim {m : EvalM ℕ} {y : Option (Option Stop × Env)}
    (h : Sim false loops loops (m st) y) : Sim false loops loops (evalbltin m st) y := by
  unfold evalbltin
  apply h.bind
  · rintro rfl
    exact trivial
  · rintro st' r env' rfl hr hexited
    exact ⟨hr, hexited⟩
  · rintro s st' r env' - rfl hended
    exact ⟨hended.status, hended.trace, hended.funcs, hended.loopnest, hended.skips.congr rfl rfl⟩

theorem breakcmd_sim {ctx : Ctx} {n : ℕ} (hpos : 0 < n) {skip : Skip} {s : ℕ → Stop}
    (hsame : Same ctx.loops st env)
    (hskips : ∀ n st, st.evalskip = some skip → st.skipcount = n → 0 < n → n ≤ ctx.loops →
      Skips ctx.loops (some (s n)) st) :
    Sim false ctx.loops ctx.loops (breakcmd skip n st) (jump ctx n s env) := by
  unfold breakcmd
  rw [@bind_ok _ _ get _ _ _ _ rfl, hsame.loopnest]
  unfold jump andThen handle
  dsimp only [setStatus]
  by_cases hzero : min n ctx.loops = 0
  · rw [if_pos hzero, if_neg (by omega)]
    exact ⟨rfl, hsame.trace, hsame.funcs, hsame.loopnest, hsame.skip⟩
  · rw [if_neg hzero, if_pos (by omega)]
    exact ⟨rfl, hsame.trace, hsame.funcs, hsame.loopnest,
      hskips _ _ rfl rfl (by omega) (by omega)⟩

theorem returncmd_sim {a : Answers} {ctx : Ctx} {n : Option ℕ} (hsame : Same ctx.loops st env) :
    Sim false ctx.loops ctx.loops (returncmd n st)
      (execCommand a exec ctx (.return_ n) env) := by
  cases n with
  | none => exact ⟨hsame.status.symm, hsame.trace, hsame.funcs, hsame.loopnest, rfl⟩
  | some n => exact ⟨rfl, hsame.trace, hsame.funcs, hsame.loopnest, rfl⟩

theorem evallines_sim (hE : EvalSim eval exec) (hexit : flags.exit = false)
    {l : List (Option Node)} {status : ℕ} (hsame : Same loops st env) :
    Sim false loops loops (evallines eval flags l status st)
      (script exec ⟨flags.tested, loops⟩ l status env) := by
  induction l generalizing status st env with
  | nil => exact ⟨rfl, hsame.trace, hsame.funcs, hsame.loopnest, hsame.skip⟩
  | cons n rest ih =>
    rw [evallines]
    cases n with
    | none =>
      rw [script]
      unfold andThen handle
      rcases hE.blank flags ⟨flags.tested, loops⟩ st env hexit with ⟨hm, hx⟩ | ⟨hm, hx⟩
      · rw [bind_none hm, hx]
        exact trivial
      · rw [bind_ok hm, hx, @bind_ok _ _ get _ _ _ _ rfl, hsame.skip]
        exact ih hsame
    | some n =>
      rw [script]
      have h := hE.tree flags (some n) loops st env hsame
      rw [hexit] at h
      apply bind_andThen (sim_closed _ _ _) h
      · intro s st' env' hended hsame'
        rw [@bind_ok _ _ get _ _ _ _ rfl, hsame'.skip, ← hended.status]
        exact ih hsame'
      · intro s st' r env' hended
        rw [@bind_ok _ _ get _ _ _ _ rfl, hended.isSome]
        exact hended

/-- `clearFunc` ends a `return`. -/
theorem clearFunc_sim {nest s : ℕ} {r : Option Stop} (h : Ended nest loops s st r env) :
    ∃ r', catchReturn (ends r) env = some (r', env) ∧
      Ended nest loops s { st with evalskip := clearFunc st.evalskip } r' env := by
  have hskips := h.skips
  rcases r with _ | ⟨n | n | (_ | _) | _⟩
  case some.exit => exact hskips.elim
  case none =>
    have hskip : st.evalskip = none := hskips
    exact ⟨none, rfl, h.status, h.trace, h.funcs, h.loopnest, by simp [Skips, hskip, clearFunc]⟩
  case some.brk =>
    refine ⟨_, rfl, h.status, h.trace, h.funcs, h.loopnest, ?_⟩
    rw [hskips.1]
    exact ⟨rfl, hskips.2⟩
  case some.cont =>
    refine ⟨_, rfl, h.status, h.trace, h.funcs, h.loopnest, ?_⟩
    rw [hskips.1]
    exact ⟨rfl, hskips.2⟩
  case some.ret.false =>
    have hskip : st.evalskip = some .func := hskips
    exact ⟨none, rfl, h.status, h.trace, h.funcs, h.loopnest, by simp [Skips, hskip, clearFunc]⟩
  case some.ret.true =>
    have hskip : st.evalskip = some .funcdef := hskips
    exact ⟨none, rfl, h.status, h.trace, h.funcs, h.loopnest, by simp [Skips, hskip, clearFunc]⟩

theorem cmdloop_sim (hE : EvalSim eval exec) {l : List (Option Node)} (hsame : Same loops st env) :
    Sim false loops loops (cmdloop eval l st)
      (catchReturn (script exec ⟨false, loops⟩ l 0) env) := by
  unfold cmdloop catchReturn
  apply (@evallines_sim _ _ {} _ _ _ hE rfl l 0 hsame).bind_handle (sim_closed _ _ _)
  · exact fun _ => rfl
  · intro s st' r env' _ hended
    obtain ⟨r', hcatch, hended'⟩ := clearFunc_sim hended
    change Sim false loops loops (some (.ok s _)) (catchReturn (ends r) env')
    rw [hcatch]
    exact hended'

/-- A function is called outside of all loops. -/
theorem evalfun_sim (hE : EvalSim eval exec) {body : Node} (hsame : Same loops st env) :
    Sim false loops loops (evalfun eval flags body st)
      (catchReturn (exec ⟨flags.tested, 0⟩ (some body)) env) := by
  have h := hE.tree flags.onlyTested (some body) 0 { st with loopnest := 0 } env
    ⟨hsame.trace, hsame.status, hsame.funcs, hsame.skip, rfl⟩
  have hsim := h.sim
  unfold evalfun catchReturn handle
  cases hm : eval flags.onlyTested (some body) { st with loopnest := 0 } with
  | none =>
    rw [hm] at hsim
    cases hx : exec ⟨flags.tested, 0⟩ (some body) env with
    | none => exact trivial
    | some y =>
      change Sim _ _ _ none (exec ⟨flags.tested, 0⟩ (some body) env) at hsim
      rw [hx] at hsim
      exact hsim.elim
  | some res =>
    rw [hm] at hsim
    change Sim _ _ _ (some res) (exec ⟨flags.tested, 0⟩ (some body) env) at hsim
    cases hx : exec ⟨flags.tested, 0⟩ (some body) env with
    | none =>
      rw [hx] at hsim
      cases res <;> exact hsim.elim
    | some y =>
      obtain ⟨r, env'⟩ := y
      rw [hx] at hsim
      cases res with
      | exend st' =>
        obtain rfl := hsim.1.resolve_left Bool.false_ne_true
        exact ⟨.inr rfl, hsim.2.trace, hsim.2.status⟩
      | ok s st' =>
        have hended : Ended 0 0 s st' r env' := hsim
        obtain ⟨r', hcatch, hended'⟩ := clearFunc_sim hended
        change Sim false loops loops (some (.ok st'.exitstatus (funcdone st st')))
          (catchReturn (ends r) env')
        rw [hcatch, (h.ok s st' hm).2]
        exact ⟨hended'.status, hended'.trace, hended'.funcs, hsame.loopnest,
          (hended'.skips.mono (Nat.zero_le loops)).congr rfl rfl⟩

theorem evalcommand_sim {a : Answers} (hE : EvalSim eval exec) {c : Command}
    (hsame : Same loops st env) :
    Sim false loops loops (evalcommand a eval flags c st)
      (execCommand a exec ⟨flags.tested, loops⟩ c env) := by
  cases c with
  | word text =>
    rw [evalcommand, execCommand, @bind_ok _ _ get _ _ _ _ rfl,
      @bind_ok _ _ (modify _) _ _ _ _ rfl]
    dsimp only
    rw [hsame.trace, congrFun hsame.funcs text]
    have hsame' : Same loops { st with trace := env.trace ++ [text] }
        { env with trace := env.trace ++ [text] } :=
      ⟨rfl, hsame.status, hsame.funcs, hsame.skip, hsame.loopnest⟩
    cases env.funcs text with
    | none => exact ⟨rfl, rfl, hsame.funcs, hsame.loopnest, hsame.skip⟩
    | some body => exact evalfun_sim hE hsame'
  | break_ n hpos =>
    apply evalbltin_sim
    exact breakcmd_sim hpos hsame fun n st hskip hcount hpos hle => ⟨hskip, hcount, hpos, hle⟩
  | continue_ n hpos =>
    apply evalbltin_sim
    exact breakcmd_sim hpos hsame fun n st hskip hcount hpos hle => ⟨hskip, hcount, hpos, hle⟩
  | return_ n => exact evalbltin_sim (returncmd_sim hsame)
  | eval l => exact evalbltin_sim (evallines_sim hE rfl hsame)
  | dot l => exact evalbltin_sim (cmdloop_sim hE hsame)

/-! ### Commands -/

/-- The rules of the code: only a `return` with operand gives its status to the loop whose
condition it is in, and a pipeline in the background is tested where it stands. -/
def Rules.Code (p : Rules) : Prop := p.condRet = (fun _ s => s) ∧ p.bgTested = id

theorem binary_sim {a : Answers} {eflag : Bool} {k : ℕ} (hE : EvalSim eval exec) {op : BinOp}
    {ch1 ch2 : Node} (hsame : Same loops st env) :
    NodeSim eflag ⟨flags.tested, loops⟩ flags.exit
      (evalnode a eval k flags (.binary op ch1 ch2) st)
      (execNode p a eflag exec k ⟨flags.tested, loops⟩ (.binary op ch1 ch2) env) := by
  have hstop : ∀ s st' r env', Ended loops loops s st' (some r) env' →
      NodeSim eflag ⟨flags.tested, loops⟩ flags.exit
        ((do
          let st ← get
          if op.short s || st.evalskip.isSome then return (s, false)
          else
            let status ← eval flags (some ch2)
            return (status, false) : EvalM (ℕ × Bool)) st') (some (some r, env')) := by
    intro s st' r env' hended
    rw [@bind_ok _ _ get _ _ _ _ rfl, if_pos (by rw [hended.isSome]; simp)]
    exact ⟨_, _, hended, rfl⟩
  have htail : ∀ st' env', Same loops st' env' →
      NodeSim eflag ⟨flags.tested, loops⟩ flags.exit
        ((do
          let status ← eval flags (some ch2)
          return (status, false) : EvalM (ℕ × Bool)) st')
        (exec ⟨flags.tested, loops⟩ (some ch2) env') :=
    fun st' env' hsame' => (hE.tree flags (some ch2) loops st' env' hsame').sim.node
  cases op with
  | and =>
    rw [evalnode, execNode]
    apply bind_andThen (nodeSim_closed _ _ _) ?_ ?_ hstop
    · rw [show (flags.tested || BinOp.and != .semi) = true by simp]
      exact hE.tree { tested := true } (some ch1) loops st env hsame
    · intro s st' env' hended hsame'
      rw [@bind_ok _ _ get _ _ _ _ rfl, hsame'.skip, ← hended.status]
      by_cases hs : env'.exitstatus = 0
      · rw [if_neg (by simp [BinOp.short, hs]), if_pos hs]
        exact htail st' env' hsame'
      · rw [if_pos (by simp [BinOp.short, hs]), if_neg hs]
        exact ⟨none, env', hended.status.symm ▸ hended, rfl⟩
  | or =>
    rw [evalnode, execNode]
    apply bind_andThen (nodeSim_closed _ _ _) ?_ ?_ hstop
    · rw [show (flags.tested || BinOp.or != .semi) = true by simp]
      exact hE.tree { tested := true } (some ch1) loops st env hsame
    · intro s st' env' hended hsame'
      rw [@bind_ok _ _ get _ _ _ _ rfl, hsame'.skip, ← hended.status]
      by_cases hs : env'.exitstatus = 0
      · rw [if_pos (by simp [BinOp.short, hs]), if_pos hs]
        exact ⟨none, env', hended.status.symm ▸ hended, rfl⟩
      · rw [if_neg (by simp [BinOp.short, hs]), if_neg hs]
        exact htail st' env' hsame'
  | semi =>
    unfold evalnode execNode
    apply bind_andThen (nodeSim_closed _ _ _) ?_ ?_ hstop
    · rw [show (flags.tested || BinOp.semi != .semi) = flags.tested by simp]
      exact hE.tree { tested := flags.tested } (some ch1) loops st env hsame
    · intro s st' env' hended hsame'
      rw [@bind_ok _ _ get _ _ _ _ rfl, hsame'.skip, if_neg (by simp [BinOp.short])]
      exact htail st' env' hsame'

theorem if_sim {a : Answers} {eflag : Bool} {k : ℕ} (hE : EvalSim eval exec)
    {test ifpart : Node} {elsepart : Option Node} (hsame : Same loops st env) :
    NodeSim eflag ⟨flags.tested, loops⟩ flags.exit
      (evalnode a eval k flags (.if_ test ifpart elsepart) st)
      (execNode p a eflag exec k ⟨flags.tested, loops⟩ (.if_ test ifpart elsepart) env) := by
  unfold evalnode execNode
  apply bind_andThen (nodeSim_closed _ _ _)
    (hE.tree { tested := true } (some test) loops st env hsame)
  · intro s st' env' hended hsame'
    rw [@bind_ok _ _ get _ _ _ _ rfl, hsame'.skip, ← hended.status, if_neg (by simp)]
    by_cases hs : env'.exitstatus = 0
    · rw [if_pos hs, if_pos hs]
      exact (hE.tree flags (some ifpart) loops st' env' hsame').sim.node
    · rw [if_neg hs, if_neg hs]
      cases elsepart with
      | none =>
        exact ⟨none, { env' with exitstatus := 0 },
          ⟨rfl, hsame'.trace, hsame'.funcs, hsame'.loopnest, hsame'.skip⟩, rfl⟩
      | some n => exact (hE.tree flags (some n) loops st' env' hsame').sim.node
  · intro s st' r env' hended
    rw [@bind_ok _ _ get _ _ _ _ rfl, if_pos (by rw [hended.isSome]; rfl)]
    exact ⟨_, _, hended, rfl⟩

theorem evalnode_sim {a : Answers} {eflag : Bool} {k : ℕ} (hp : p.Code) (hE : EvalSim eval exec)
    {n : Node} (hsame : Same loops st env) :
    NodeSim eflag ⟨flags.tested, loops⟩ flags.exit (evalnode a eval k flags n st)
      (execNode p a eflag exec k ⟨flags.tested, loops⟩ n env) := by
  cases n with
  | binary op ch1 ch2 => exact binary_sim hE hsame
  | if_ test ifpart elsepart => exact if_sim hE hsame
  | not com =>
    rw [evalnode, execNode]
    apply bind_andThen (nodeSim_closed _ _ _)
      (hE.tree { tested := true } (some com) loops st env hsame)
    · intro s st' env' hended hsame'
      rw [@bind_ok _ _ get _ _ _ _ rfl, hsame'.skip, ← hended.status]
      exact ⟨none, { env' with exitstatus := if env'.exitstatus = 0 then 1 else 0 },
        ⟨rfl, hsame'.trace, hsame'.funcs, hsame'.loopnest, hsame'.skip⟩, rfl⟩
    · intro s st' r env' hended
      have hskip : st'.evalskip.isNone = false := by
        rw [← Option.not_isSome, hended.isSome]
        rfl
      rw [@bind_ok _ _ get _ _ _ _ rfl, hskip]
      exact ⟨_, _, hended, rfl⟩
  | redir redirect n =>
    rw [evalnode, execNode, @bind_ok _ _ get _ _ _ _ rfl, hsame.trace]
    dsimp only
    by_cases herr : a.redirect env.trace redirect ≠ 0
    · rw [if_pos herr, if_pos herr]
      exact ⟨none, { env with exitstatus := a.redirect env.trace redirect },
        ⟨rfl, hsame.trace, hsame.funcs, hsame.loopnest, hsame.skip⟩, rfl⟩
    · rw [if_neg herr, if_neg herr]
      exact (hE.tree flags.onlyTested (some n) loops st env hsame).sim.weaken.node
  | cmd c =>
    rw [evalnode, execNode]
    exact (evalcommand_sim hE hsame).weaken.checked
  | for_ args body =>
    rw [evalnode, execNode]
    apply Sim.node
    unfold evalfor
    rw [@bind_ok _ _ get _ _ _ _ rfl, hsame.trace]
    apply Sim.weaken
    exact inLoop_sim hsame fun st hsame => evalforFrom_sim hE hsame
  | loop until_ ch1 ch2 =>
    rw [evalnode, execNode]
    apply Sim.node
    apply Sim.weaken
    exact inLoop_sim hsame fun st hsame => evalloopFrom_sim hE hp.1 hsame
  | subshell redirect n => exact (evalsubshell_fg_sim hE hsame).checked
  | backgnd redirect n => exact (evalsubshell_bg_sim hE hsame).checked
  | pipe backgnd l =>
    cases backgnd with
    | false => exact Sim.checked (evalpipe_fg_sim hE hsame)
    | true => exact Sim.checked (evalpipe_bg_sim hE hp.2 hsame)
  | case expr cases =>
    rw [evalnode, execNode]
    apply Sim.node
    unfold evalcase
    rw [@bind_ok _ _ get _ _ _ _ rfl, hsame.trace]
    dsimp only
    rcases cases[a.casematch env.trace expr]? with _ | (_ | body)
    case some.some => exact (hE.tree flags (some body) loops st env hsame).sim
    all_goals exact ⟨rfl, hsame.trace, hsame.funcs, hsame.loopnest, hsame.skip⟩
  | defun name body =>
    refine ⟨none, { env with funcs := Function.update env.funcs name (some body), exitstatus := 0 },
      ⟨rfl, hsame.trace, ?_, hsame.loopnest, hsame.skip⟩, rfl⟩
    exact congrArg (Function.update · name (some body)) hsame.funcs

/-! ### `evaltree` -/

/-- What follows the label `out`, where a command has ended. -/
theorem out_sim {eflag checkexit : Bool} {s : ℕ} {r : Option Stop}
    (h : Ended loops loops s st r env) (hs : st.exitstatus = s) :
    TreeSim flags.exit loops (out eflag flags checkexit s st)
      (if checkexit then checked eflag ⟨flags.tested, loops⟩ (ends r) env else ends r env) := by
  have hchecked : checked eflag ⟨flags.tested, loops⟩ (ends r) env =
      (let env' := { env with checks := env.checks ++ [(env.exitstatus, flags.tested)] }
       if eflag && !flags.tested && env.exitstatus != 0 then some (some .exit, env')
       else some (r, env')) := if_neg h.ne_exit
  unfold out
  by_cases hexit : (eflag && (!flags.tested && checkexit) && s != 0) = true
  · rw [if_pos hexit]
    simp only [Bool.and_eq_true] at hexit
    obtain ⟨⟨heflag, htested, hcheck⟩, hne⟩ := hexit
    rw [if_pos hcheck, hchecked]
    dsimp only
    rw [h.status, if_pos (by simp only [heflag, htested, hne, Bool.and_self])]
    refine ⟨⟨.inr rfl, h.trace, ?_⟩, fun s st' hok => by cases hok⟩
    rw [hs]
  · rw [if_neg hexit]
    obtain ⟨env', henv, hended⟩ : ∃ env', (if checkexit then
        checked eflag ⟨flags.tested, loops⟩ (ends r) env else ends r env) = some (r, env') ∧
        Ended loops loops s st r env' := by
      cases checkexit with
      | false => exact ⟨env, rfl, h⟩
      | true =>
        rw [if_pos rfl, hchecked]
        dsimp only
        rw [h.status, if_neg (by simpa using hexit)]
        exact ⟨_, rfl, rfl, h.trace, h.funcs, h.loopnest, h.skips⟩
    rw [henv]
    cases flags.exit with
    | true =>
      refine ⟨⟨.inl rfl, hended.trace, ?_⟩, fun s st' hok => by cases hok⟩
      rw [hs, hended.status]
    | false =>
      rw [if_neg Bool.false_ne_true, @bind_ok _ _ get _ _ _ _ rfl, hs]
      refine ⟨hended, fun s' st' hok => ⟨rfl, ?_⟩⟩
      cases hok
      exact hs

/-- What follows the label `out`, where there is no command. -/
theorem out_blank (eflag : Bool) (flags : Flags) (st : State) :
    out eflag flags false 0 st =
      if flags.exit then some (.exend st) else some (.ok st.exitstatus st) := by
  unfold out
  rw [if_neg (by simp)]
  cases flags.exit with
  | true => rfl
  | false => rfl

/-- `evaltree` and the structured rules, for the rules that the code has. -/
theorem evaltree_sim {a : Answers} {eflag : Bool} (hp : p.Code) (k : ℕ) :
    EvalSim (evaltree a eflag k) (execTree p a eflag k) := by
  induction k with
  | zero => exact ⟨fun _ _ _ _ _ _ => ⟨trivial, fun _ _ h => by cases h⟩,
      fun _ _ _ _ _ => .inl ⟨rfl, rfl⟩⟩
  | succ k ih =>
    constructor
    case blank =>
      intro flags ctx st env hexit
      right
      rw [evaltree, execTree, out_blank, hexit]
      exact ⟨rfl, rfl⟩
    case tree =>
      intro flags n loops st env hsame
      cases n with
      | none =>
        rw [evaltree, execTree, out_blank]
        cases flags.exit with
        | true => exact ⟨⟨.inl rfl, hsame.trace, congrArg (· % 256) hsame.status⟩,
            fun _ _ h => by cases h⟩
        | false =>
          refine ⟨⟨hsame.status.symm, hsame.trace, hsame.funcs, hsame.loopnest, hsame.skip⟩, ?_⟩
          intro s st' hok
          cases hok
          exact ⟨rfl, rfl⟩
      | some n =>
        have h := @evalnode_sim _ _ p flags loops st env a eflag k hp ih n hsame
        rw [evaltree, execTree]
        cases hm : evalnode a (evaltree a eflag k) k flags n st with
        | none =>
          rw [hm] at h
          rw [bind_none hm]
          cases hx : execNode p a eflag (execTree p a eflag k) k ⟨flags.tested, loops⟩ n env with
          | none => exact ⟨trivial, fun _ _ h => by cases h⟩
          | some y =>
            rw [hx] at h
            exact h.elim
        | some res =>
          rw [hm] at h
          cases res with
          | exend st' =>
            rw [bind_exend hm]
            cases hx : execNode p a eflag (execTree p a eflag k) k ⟨flags.tested, loops⟩ n env with
            | none =>
              rw [hx] at h
              exact h.elim
            | some y =>
              rw [hx] at h
              exact ⟨h, fun _ _ h => by cases h⟩
          | ok out st' =>
            rw [bind_ok hm]
            obtain ⟨r, env', hended, hx⟩ := h
            rw [hx]
            exact out_sim ⟨hended.status, hended.trace, hended.funcs, hended.loopnest,
              hended.skips.congr rfl rfl⟩ rfl

end Bootsh.Eval
