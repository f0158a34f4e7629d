import Bootsh.Eval.Structured

/-!
Runs by two sets of rules, side by side: a relation between their outcomes that every part of a
command keeps holds for whole runs. Two such relations: the runs agree as long as they meet the
conditions that are watched, and the shell exits where `-e` says.
-/
namespace Bootsh.Eval

open Exec

abbrev Outcome : Type := Option (Option Stop × Env)

/-! ### Child processes -/

/-- What is left of a child is its trace and its status. -/
structure Forked (env : Env) (r : Option Stop) (env' : Env) : Prop where
  next : r = none
  funcs : env'.funcs = env.funcs
  checks : env'.checks = env.checks

theorem child_forked {x : Exec} {env env' : Env} {r : Option Stop}
    (h : child x env = some (r, env')) : Forked env r env' := by
  unfold child at h
  split at h
  case h_1 => cases h
  case h_2 =>
    cases h
    exact ⟨rfl, rfl, rfl⟩

theorem elements_forked {exec : Executor} {ctx : Ctx} {last status : ℕ} {l : List Node}
    {env env' : Env} {r : Option Stop} (h : elements exec ctx last l status env = some (r, env')) :
    Forked env r env' := by
  induction l generalizing status env with
  | nil =>
    cases h
    exact ⟨rfl, rfl, rfl⟩
  | cons n rest ih =>
    rw [elements] at h
    unfold andThen handle at h
    dsimp only [setStatus] at h
    cases hx : child (exec ctx (some n)) { env with exitstatus := last } with
    | none =>
      rw [hx] at h
      cases h
    | some y =>
      obtain ⟨r', env₁⟩ := y
      obtain ⟨rfl, hfuncs, hchecks⟩ := child_forked hx
      rw [hx] at h
      obtain ⟨hnext, hfuncs', hchecks'⟩ := ih h
      exact ⟨hnext, hfuncs'.trans hfuncs, hchecks'.trans hchecks⟩

/-! ### Relations that are kept -/

/-- The parts of a command keep `R`, which says how the runs go on from a state. -/
structure Kept (p q : Rules) (eflag : Bool) (R : Env → Outcome → Outcome → Prop) : Prop where
  outOfFuel : ∀ env, R env none none
  next : ∀ env r status, r ≠ some .exit →
    R env (some (r, { env with exitstatus := status }))
      (some (r, { env with exitstatus := status }))
  word : ∀ env text x y, R { env with trace := env.trace ++ [text] } x y → R env x y
  defun : ∀ env funcs, R env (some (none, { env with funcs, exitstatus := 0 }))
    (some (none, { env with funcs, exitstatus := 0 }))
  bind : ∀ env x y (k k' : Option Stop → Exec), R env (x env) (y env) →
    (∀ env, k (some .exit) env = some (some .exit, env)) →
    (∀ env, k' (some .exit) env = some (some .exit, env)) →
    (∀ r env, r ≠ some .exit → R env (k r env) (k' r env)) →
    R env (handle x k env) (handle y k' env)
  check : ∀ env ctx x y, R env (x env) (y env) →
    R env (checked eflag ctx x env) (checked eflag ctx y env)
  fork : ∀ env x y, R { env with checks := [] } (x { env with checks := [] })
    (y { env with checks := [] }) → R env (child x env) (child y env)
  cond : ∀ env status r r', r ≠ some .exit → r' ≠ some .exit →
    R env (handle (condStatus p r status) (fun _ => ends r') env)
      (handle (condStatus q r status) (fun _ => ends r') env)
  bg : ∀ env (exec exec' : Executor) ctx l,
    (∀ tested, R env (elements exec { ctx with tested } env.exitstatus l 0 env)
      (elements exec' { ctx with tested } env.exitstatus l 0 env)) →
    R env (background p exec ctx l env) (background q exec' ctx l env)

theorem Stop.leave_ne_exit {r r' : Option Stop} (h : r ≠ some .exit)
    (hleave : Stop.leave r = some r') : r' ≠ some .exit := by
  rintro rfl
  rcases r with _ | ⟨n | n | last | _⟩
  case some.exit => exact h rfl
  case none => cases hleave
  case some.ret => cases hleave
  case some.brk =>
    rw [Stop.leave] at hleave
    split at hleave <;> cases hleave
  case some.cont =>
    rw [Stop.leave] at hleave
    split at hleave <;> cases hleave

section
variable {p q : Rules} {a : Answers} {eflag : Bool} {R : Env → Outcome → Outcome → Prop}
  {exec exec' : Executor} {env : Env}

theorem Kept.setStatus (hR : Kept p q eflag R) (env : Env) (status : ℕ) :
    R env (Exec.setStatus status env) (Exec.setStatus status env) :=
  hR.next env none status (by simp)

theorem Kept.here (hR : Kept p q eflag R) (env : Env) {r : Option Stop} (hr : r ≠ some .exit) :
    R env (some (r, env)) (some (r, env)) :=
  hR.next env r env.exitstatus hr

theorem Kept.andThen (hR : Kept p q eflag R) {x y : Exec} {k k' : Env → Exec}
    (hxy : R env (x env) (y env)) (hk : ∀ env, R env (k env env) (k' env env)) :
    R env (Exec.andThen x k env) (Exec.andThen y k' env) := by
  refine hR.bind env x y _ _ hxy (fun _ => rfl) (fun _ => rfl) ?_
  intro r env hr
  cases r with
  | none => exact hk env
  | some s => exact hR.here env hr

variable (hR : Kept p q eflag R) (hE : ∀ ctx n env, R env (exec ctx n env) (exec' ctx n env))
include hR hE

theorem Kept.loop {ctx : Ctx} {until_ : Bool} {cond body : Node} {k status : ℕ} :
    R env (loop p exec ctx until_ cond body k status env)
      (loop q exec' ctx until_ cond body k status env) := by
  induction k generalizing status env with
  | zero => exact hR.outOfFuel env
  | succ k ih =>
    unfold Bootsh.Eval.loop
    refine hR.bind env _ _ _ _ (hE _ _ env) (fun _ => rfl) (fun _ => rfl) ?_
    intro r env hr
    cases r with
    | none =>
      dsimp only
      split
      · exact hR.setStatus env status
      · refine hR.bind env _ _ _ _ (hE _ _ env) (fun _ => rfl) (fun _ => rfl) ?_
        intro r env hr
        cases hleave : Stop.leave r with
        | none => exact ih
        | some r' => exact hR.here env (Stop.leave_ne_exit hr hleave)
    | some s =>
      dsimp only
      cases hleave : Stop.leave (some s) with
      | none => exact ih
      | some r' => exact hR.cond env status (some s) r' hr (Stop.leave_ne_exit hr hleave)

theorem Kept.forLoop {ctx : Ctx} {body : Node} {n status : ℕ} :
    R env (forLoop exec ctx body n status env) (forLoop exec' ctx body n status env) := by
  induction n generalizing status env with
  | zero => exact hR.setStatus env status
  | succ n ih =>
    unfold Bootsh.Eval.forLoop
    refine hR.bind env _ _ _ _ (hE _ _ env) (fun _ => rfl) (fun _ => rfl) ?_
    intro r env hr
    cases hleave : Stop.leave r with
    | none => exact ih
    | some r' => exact hR.here env (Stop.leave_ne_exit hr hleave)

theorem Kept.execSubshell {ctx : Ctx} {redirect : ℕ} {n : Node} :
    R env (execSubshell a exec ctx redirect n env) (execSubshell a exec' ctx redirect n env) := by
  apply hR.fork
  unfold inSubshell
  split
  · exact hR.setStatus _ _
  · exact hE _ _ _

theorem Kept.elements {ctx : Ctx} {last status : ℕ} {l : List Node} :
    R env (elements exec ctx last l status env) (elements exec' ctx last l status env) := by
  induction l generalizing status env with
  | nil => exact hR.setStatus env status
  | cons n rest ih =>
    unfold Bootsh.Eval.elements
    apply hR.andThen
    · apply hR.andThen (hR.setStatus env last)
      intro env
      exact hR.fork env _ _ (hE _ _ _)
    · intro env
      exact ih

theorem Kept.script {ctx : Ctx} {l : List (Option Node)} {status : ℕ} :
    R env (script exec ctx l status env) (script exec' ctx l status env) := by
  induction l generalizing status env with
  | nil => exact hR.setStatus env status
  | cons n rest ih =>
    cases n with
    | none => exact hR.andThen (hE ctx none env) fun env => ih
    | some n => exact hR.andThen (hE ctx (some n) env) fun env => ih

omit hE in
theorem Kept.catchReturn {x y : Exec} (hxy : R env (x env) (y env)) :
    R env (catchReturn x env) (catchReturn y env) := by
  refine hR.bind env x y _ _ hxy (fun _ => rfl) (fun _ => rfl) ?_
  intro r env hr
  rcases r with _ | ⟨n | n | last | _⟩
  case some.ret => exact hR.here env (by simp)
  all_goals exact hR.here env hr

omit hE in
theorem Kept.jump {ctx : Ctx} {n : ℕ} {s : ℕ → Stop} (hs : ∀ n, s n ≠ .exit) :
    R env (jump ctx n s env) (jump ctx n s env) := by
  apply hR.andThen (hR.setStatus env 0)
  intro env
  split
  · exact hR.here env (by simp)
  · exact hR.here env (by simpa using hs _)

theorem Kept.execCommand {ctx : Ctx} {c : Command} :
    R env (execCommand a exec ctx c env) (execCommand a exec' ctx c env) := by
  cases c with
  | word text =>
    apply hR.word env text
    unfold Bootsh.Eval.execCommand
    dsimp only
    split
    · exact hR.catchReturn (hE _ _ _)
    · exact hR.setStatus _ _
  | break_ n hpos => exact hR.jump (by simp)
  | continue_ n hpos => exact hR.jump (by simp)
  | return_ n =>
    cases n with
    | none => exact hR.here env (by simp)
    | some n => exact hR.andThen (hR.setStatus env n) fun env => hR.here env (by simp)
  | eval l => exact hR.script hE
  | dot l => exact hR.catchReturn (hR.script hE)

theorem Kept.execNode {k : ℕ} {ctx : Ctx} {n : Node} :
    R env (execNode p a eflag exec k ctx n env) (execNode q a eflag exec' k ctx n env) := by
  cases n with
  | not com => exact hR.andThen (hE _ _ env) fun env => hR.setStatus env _
  | redir redirect n =>
    unfold Bootsh.Eval.execNode
    dsimp only
    split
    · exact hR.check env ctx _ _ (hR.setStatus env _)
    · exact hE ctx (some n) env
  | cmd c => exact hR.check env ctx _ _ (hR.execCommand hE)
  | for_ args body => exact hR.forLoop hE
  | loop until_ cond body => exact hR.loop hE
  | subshell redirect n => exact hR.check env ctx _ _ (hR.execSubshell hE)
  | backgnd redirect n =>
    exact hR.check env ctx _ _ (hR.andThen (hR.execSubshell hE) fun env => hR.setStatus env 0)
  | pipe backgnd l =>
    cases backgnd with
    | true =>
      apply hR.check env ctx (Bootsh.Eval.background p exec ctx l)
        (Bootsh.Eval.background q exec' ctx l)
      exact hR.bg env exec exec' ctx l fun _ => hR.elements hE
    | false =>
      apply hR.check env ctx (fun env => Bootsh.Eval.elements exec ctx env.exitstatus l 0 env)
        fun env => Bootsh.Eval.elements exec' ctx env.exitstatus l 0 env
      exact hR.elements hE
  | case expr cases =>
    unfold Bootsh.Eval.execNode
    dsimp only
    rcases cases[a.casematch env.trace expr]? with _ | (_ | body)
    case some.some => exact hE ctx (some body) env
    all_goals exact hR.setStatus env 0
  | binary op ch1 ch2 =>
    cases op with
    | and =>
      apply hR.andThen (hE _ _ env)
      intro env
      split
      · exact hE ctx (some ch2) env
      · exact hR.here env (by simp)
    | or =>
      apply hR.andThen (hE _ _ env)
      intro env
      split
      · exact hR.here env (by simp)
      · exact hE ctx (some ch2) env
    | semi => exact hR.andThen (hE _ _ env) fun env => hE ctx (some ch2) env
  | if_ test ifpart elsepart =>
    apply hR.andThen (hE _ _ env)
    intro env
    split
    · exact hE ctx (some ifpart) env
    · cases elsepart with
      | none => exact hR.setStatus env 0
      | some n => exact hE ctx (some n) env
  | defun name body => exact hR.defun env _

end

/-- What every part of a command keeps holds for its run. -/
theorem Kept.execTree {p q : Rules} {a : Answers} {eflag : Bool}
    {R : Env → Outcome → Outcome → Prop} (hR : Kept p q eflag R) (k : ℕ) (ctx : Ctx)
    (n : Option Node) (env : Env) :
    R env (execTree p a eflag k ctx n env) (execTree q a eflag k ctx n env) := by
  induction k generalizing ctx n env with
  | zero => exact hR.outOfFuel env
  | succ k ih =>
    cases n with
    | none => exact hR.here env (by simp)
    | some n => exact hR.execNode ih

end Bootsh.Eval
