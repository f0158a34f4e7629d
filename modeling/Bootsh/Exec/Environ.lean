import Bootsh.Var.Plain
import Bootsh.Lib.Upsert
import Bootsh.Exec.Transparent

/-!
The environments of commands: the list of exported variables that `execve` is given, and the
`environ` of the process, which `shellexec` patches for the programs that are built in. A
child of `vfork` patches it for the shell too.
-/
namespace Bootsh

open VFlags Upsert

variable {Dir Func : Type}

/-! ### The process -/

/-- The name of a string of `environ`, if it has one. -/
def envName (s : Text) : Option Text := if '=' ∈ s then some (varName s) else none

/-- `setenv` of the C library, with `overwrite`. -/
def setenv (name value : Text) (environ : List Text) : List Text :=
  if name = [] ∨ '=' ∈ name then environ
  else upsert envName (name ++ '=' :: value) environ

/-- One turn of the loop of `shellexec`. -/
def setenvText (environ : List Text) (s : Text) : List Text :=
  match varValue s with
  | none => environ
  | some value => if varName s = pwdName then environ else setenv (varName s) value environ

/-- What `environment()` lists. -/
def environment (vars : Vars) : List Text := listvars vexport vunset vars

structure Process (Dir Func : Type) where
  shell : Shell Dir Func
  environ : List Text

/-- `vforkexec` is a command that is executed, after its own assignments; the child runs in the
memory of the shell. -/
inductive ProcOp (Dir Func : Type) where
  | shell (w : World Dir Func) (op : CmdOp Func)
  | vforkexec

/-- A step, with the environment that a program in the process sees. -/
def Process.step (st : Process Dir Func) :
    ProcOp Dir Func → Option (List Text) × Process Dir Func
  | .shell w op => (none, { st with shell := (st.shell.cmdStep w op).2 })
  | .vforkexec =>
    let environ := (environment st.shell.vars).foldl setenvText st.environ
    (some environ, { st with environ })

/-- The shell as it starts in the environment `environ`. -/
def initProcess (files : Files Dir) (root : Bool) (environ : List Text) (ppid : Text) (cwd : Dir)
    (samedir : AbsPath → Bool) : Process Dir Func :=
  ⟨initShell files root environ ppid cwd samedir, environ⟩

/-- The same with the environment of `execve`, which only the variables decide. -/
def Shell.envStep (st : Shell Dir Func) : ProcOp Dir Func → Option (List Text) × Shell Dir Func
  | .shell w op => (none, (st.cmdStep w op).2)
  | .vforkexec => (some (environment st.vars), st)

/-- The same strings, whatever their order. -/
def SameEnv : Option (List Text) → Option (List Text) → Prop
  | none, none => True
  | some l, some l' => ∀ s, s ∈ l ↔ s ∈ l'
  | _, _ => False

/-! ### The loop -/

/-- The loop sets the variable. -/
def SetByLoop (s : Text) : Prop := '=' ∈ s ∧ varName s ≠ pwdName ∧ varName s ≠ []

instance (s : Text) : Decidable (SetByLoop s) := inferInstanceAs (Decidable (_ ∧ _ ∧ _))

theorem setenvText_eq (environ : List Text) (s : Text) :
    setenvText environ s = if SetByLoop s then upsert envName s environ else environ := by
  unfold setenvText
  cases hvalue : varValue s with
  | none =>
    have hmem := varValue_eq_none.1 hvalue
    rw [if_neg fun h : SetByLoop s => hmem h.1]
  | some value =>
    have hmem : '=' ∈ s := by
      by_contra hno
      have := hvalue.symm.trans (varValue_eq_none.2 hno)
      cases this
    dsimp only
    by_cases hpwd : varName s = pwdName
    · simp [SetByLoop, hpwd]
    · by_cases hname : varName s = []
      · simp [SetByLoop, hname, setenv]
      · rw [if_neg hpwd, setenv, if_neg (by simp [hname, varName_plain]),
          varName_append_value hvalue, if_pos ⟨hmem, hpwd, hname⟩]

theorem foldl_setenvText (l environ : List Text) :
    l.foldl setenvText environ =
      (l.filter SetByLoop).foldl (fun environ s => upsert envName s environ) environ := by
  rw [List.foldl_filter]
  congr 1
  funext environ s
  rw [setenvText_eq]
  simp

/-- No two strings have the same name. -/
structure DistinctNames (l : List Text) : Prop where
  nodup : l.Nodup
  eq : ∀ s ∈ l, ∀ t ∈ l, '=' ∈ s → envName s = envName t → s = t

theorem environment_distinct {vars : Vars} (h : vars.Plain) :
    DistinctNames (environment vars) := by
  have hname : ∀ p ∈ vars.vartab.entries, varName (varText vars.linenovar p.1 p.2.value) = p.1 :=
    fun p hp => varName_varText (h p.1 p.2 (HashTable.mem_entries.1 hp)) _ _
  have hsame : ∀ p ∈ vars.vartab.entries, ∀ q ∈ vars.vartab.entries, p.1 = q.1 → p = q :=
    List.inj_on_of_nodup_map vars.vartab.nodup_entries
  unfold environment listvars
  constructor
  · apply List.Nodup.map_on
    · intro p hp q hq heq
      have hp := List.mem_of_mem_filter hp
      have hq := List.mem_of_mem_filter hq
      exact hsame p hp q hq (by rw [← hname p hp, heq, hname q hq])
    · exact (vars.vartab.nodup_entries.of_map _).filter _
  · intro s hs t ht hmem heq
    obtain ⟨p, hp, rfl⟩ := List.mem_map.1 hs
    obtain ⟨q, hq, rfl⟩ := List.mem_map.1 ht
    have hp := List.mem_of_mem_filter hp
    have hq := List.mem_of_mem_filter hq
    simp only [envName, hmem, if_true] at heq
    split at heq
    · have hnames := Option.some.inj heq
      rw [hname p hp, hname q hq] at hnames
      rw [hsame p hp q hq hnames]
    · cases heq

/-- What the loop has to find: strings that it does not replace are exported variables, and
variables that it does not set are there. -/
structure EnvironOk (l environ : List Text) : Prop where
  other : ∀ s ∈ environ, (∀ t ∈ l, SetByLoop t → envName s ≠ envName t) → s ∈ l
  again : ∀ t ∈ l, SetByLoop t → ∀ s ∈ (keyed envName (envName t) environ).tail, s = t
  kept : ∀ t ∈ l, ¬ SetByLoop t → t ∈ environ

theorem foldl_setenvText_iff {l environ : List Text} (hl : DistinctNames l) :
    (∀ s, s ∈ l.foldl setenvText environ ↔ s ∈ l) ↔ EnvironOk l environ := by
  have hset : ∀ {t}, t ∈ l.filter SetByLoop ↔ t ∈ l ∧ SetByLoop t := by
    intro t
    simp
  have hnodup : ((l.filter SetByLoop).map envName).Nodup := by
    apply List.Nodup.map_on
    · intro s hs t ht heq
      obtain ⟨hs, hloop⟩ := hset.1 hs
      exact hl.eq s hs t (hset.1 ht).1 hloop.1 heq
    · exact hl.nodup.filter _
  have hmem : ∀ s, s ∈ l.foldl setenvText environ ↔ s ∈ l.filter SetByLoop ∨
      s ∈ environ ∧ envName s ∉ (l.filter SetByLoop).map envName ∨
      ∃ t ∈ l.filter SetByLoop, s ∈ (keyed envName (envName t) environ).tail := by
    intro s
    rw [foldl_setenvText, mem_foldl_upsert hnodup]
  have hnames : ∀ s, envName s ∉ (l.filter SetByLoop).map envName ↔
      ∀ t ∈ l, SetByLoop t → envName s ≠ envName t := by
    intro s
    simp only [List.mem_map, hset, not_exists, not_and]
    exact ⟨fun h t ht hloop heq => h t ⟨ht, hloop⟩ heq.symm,
      fun h t ht heq => h t ht.1 ht.2 heq.symm⟩
  constructor
  · intro h
    constructor
    · intro s hs hne
      exact (h s).1 ((hmem s).2 (.inr (.inl ⟨hs, (hnames s).2 hne⟩)))
    · intro t ht hloop s hs
      have hsl : s ∈ l := (h s).1 ((hmem s).2 (.inr (.inr ⟨t, hset.2 ⟨ht, hloop⟩, hs⟩)))
      have hkey : envName s = envName t := (mem_keyed.1 (List.mem_of_mem_tail hs)).2
      exact (hl.eq t ht s hsl hloop.1 hkey.symm).symm
    · intro t ht hno
      rcases (hmem t).1 ((h t).2 ht) with hin | ⟨hin, -⟩ | ⟨s, -, hin⟩
      · exact absurd (hset.1 hin).2 hno
      · exact hin
      · exact (mem_keyed.1 (List.mem_of_mem_tail hin)).1
  · intro h s
    rw [hmem]
    constructor
    · rintro (hin | ⟨hin, hne⟩ | ⟨t, ht, hin⟩)
      · exact (hset.1 hin).1
      · exact h.other s hin ((hnames s).1 hne)
      · obtain ⟨ht, hloop⟩ := hset.1 ht
        rw [h.again t ht hloop s hin]
        exact ht
    · intro hs
      by_cases hloop : SetByLoop s
      · exact .inl (hset.2 ⟨hs, hloop⟩)
      · refine .inr (.inl ⟨h.kept s hs hloop, (hnames s).2 ?_⟩)
        intro t ht htloop heq
        exact hloop (hl.eq t ht s hs htloop.1 heq.symm ▸ htloop)

/-! ### Runs -/

variable {files : Files Dir} {w : World Dir Func} {st : Shell Dir Func}

theorem withVars_plain {vars : Vars} (hooks : vars.Hooks) (h : vars.Plain) :
    (st.withVars vars hooks).vars.Plain := by
  have hrun := callHooks_run vars.called
    { st with vars := { vars with called := [] }, hooks := hooks.same rfl rfl, quiet := rfl }
  have hvars : (st.withVars vars hooks).vars = { vars with called := [] } := hrun.vars
  apply h.same
  rw [hvars]

theorem varOp_plain (op : VarOp) (h : st.vars.Plain) : (st.varOp op).2.vars.Plain :=
  withVars_plain (st.hooks.step op) (h.step op)

theorem cmdStep_plain (op : CmdOp Func) (h : st.vars.Plain) : (st.cmdStep w op).2.vars.Plain := by
  cases op with
  | var op => exact varOp_plain op h
  | cd args =>
    apply @cdcmd_keeps _ _ w.files st fun st => st.vars.Plain
    · exact fun _ op _ h => varOp_plain op h
    · exact fun _ _ h => h
    · exact fun _ _ h => h
    · exact fun _ h => h
    · exact h
  | hash name =>
    change (st.hashName w name).vars.Plain
    unfold Shell.hashName
    split
    · split <;> exact h
    · exact h
  | defun name func | unsetfunc name | hashClear | lookup name act path => exact h

/-- The loop finds what it has to find. -/
def Process.EnvOk (st : Process Dir Func) : ProcOp Dir Func → Prop
  | .shell _ _ => True
  | .vforkexec => EnvironOk (environment st.shell.vars) st.environ

theorem initShell_plain (root : Bool) (environ : List Text) (ppid : Text) (cwd : Dir)
    (samedir : AbsPath → Bool) :
    (initShell files root environ ppid cwd samedir : Shell Dir Func).vars.Plain := by
  apply @setpwd_keeps _ _ files _ fun st : Shell Dir Func => st.vars.Plain
  · exact fun _ op _ h => varOp_plain op h
  · exact fun _ _ h => h
  · exact withVars_plain (Vars.initVars_hooks root environ ppid) (Vars.initVars_plain root environ ppid)

/-- `FOO` is inherited and unset. -/
def unsetFoo : List (ProcOp Bool Unit) :=
  [.shell twoDirsWorld (.var (.unset "FOO".toList)), .vforkexec]

end Bootsh
