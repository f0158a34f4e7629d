import Bootsh.Lib.Run
import Bootsh.Exec.Lookup
import Bootsh.Exec.CdState

/-!
The command table over whole runs: changes of variables, of the directory and of the
functions, and lookups. The files that a lookup sees do not change.
-/
namespace Bootsh

variable {Dir Func : Type}

/-- What touches the table. `hash` is one turn of the loop of `hashcmd`. -/
inductive CmdOp (Func : Type) where
  | var (op : VarOp)
  | cd (args : List Text)
  | defun (name : Text) (func : Func)
  | unsetfunc (name : Text)
  | hashClear
  | hash (name : Text)
  | lookup (name : Text) (act : Act) (path : CmdPath)

namespace Shell

def withTable (table : CmdTable Func) (st : Shell Dir Func) : Shell Dir Func :=
  { st with cmdtable := table }

/-- One argument of `hash`. -/
def hashName (w : World Dir Func) (name : Text) (st : Shell Dir Func) : Shell Dir Func :=
  let st := match st.cmdtable.find name with
    | some cmdp =>
      if cmdp.param.volatile st.builtinloc then st.withTable (st.cmdtable.erase name) else st
    | none => st
  st.withTable (st.findCommand w name { err := true } .pathval).table

def cmdStep (w : World Dir Func) (st : Shell Dir Func) : CmdOp Func → Unit × Shell Dir Func
  | .var op => ((), (st.varOp op).2)
  | .cd args => ((), (cdcmd w.files args st).2)
  | .defun name func => ((), st.withTable (Bootsh.defun name func st.cmdtable))
  | .unsetfunc name => ((), st.withTable (Bootsh.unsetfunc name st.cmdtable))
  | .hashClear => ((), st.withTable (clearcmdentry st.builtinloc st.cmdtable))
  | .hash name => ((), st.hashName w name)
  | .lookup name act path => ((), st.withTable (st.findCommand w name act path).table)

/-- The table with nothing but the functions. -/
def onlyFunctions (st : Shell Dir Func) : Shell Dir Func :=
  st.withTable (st.cmdtable.update fun _ e => match e.param with
    | .function _ => some e
    | .normal _ | .builtin _ => none)

/-- `cd` does not stop between `chdir` and `hashcd` with commands left to mark. -/
def CdMarks (files : Files Dir) (args : List Text) (st : Shell Dir Func) : Prop :=
  ∀ target cwd, cdTarget files args st = .ok target →
    files.chdir st.cwd (((cdDir target.path target.physical st).map AbsPath.text).getD
      target.path) = .ok cwd →
    st.readonly oldpwdName = false ∧ st.readonly pwdName = false ∨ cwd = st.cwd ∨ st.Marked

/-- The operations of a run: paths have no `%func`, and every `cd` marks the commands. -/
def CmdOk (w : World Dir Func) (st : Shell Dir Func) : CmdOp Func → Prop
  | .var op => op.Watched
  | .cd args => st.CdMarks w.files args
  | .hash _ => NoFunc st.pathval
  | .lookup _ _ path => NoFunc (path.text st.pathval)
  | .defun _ _ | .unsetfunc _ | .hashClear => True

/-- The table is right for the path and the directory of the shell. -/
def TableOk (files : Files Dir) (st : Shell Dir Func) : Prop :=
  Bootsh.TableOk files st.pathval st.cwd st.cmdtable

end Shell

/-! ### Operations on variables -/

/-- The entries of `table'` are entries of `table`, and none is for a program. -/
def Cleared (table table' : CmdTable Func) : Prop :=
  ∀ name e, table'.find name = some e → table.find name = some e ∧ ∀ idx, e.param ≠ .normal idx

theorem clearcmdentry_cleared (loc : Option ℕ) (table : CmdTable Func) :
    Cleared table (clearcmdentry loc table) := by
  intro name e hfind
  rw [clearcmdentry, HashTable.find_update, Option.bind_eq_some_iff] at hfind
  obtain ⟨e', he', heq⟩ := hfind
  split at heq
  · cases heq
  case isFalse hvol =>
    obtain rfl := Option.some.inj heq
    refine ⟨he', ?_⟩
    rintro idx hparam
    exact hvol (by rw [hparam]; rfl)

theorem Cleared.trans {table table' table'' : CmdTable Func} (h : Cleared table table')
    (h' : Cleared table' table'') : Cleared table table'' := by
  intro name e hfind
  obtain ⟨hfind', hne⟩ := h' name e hfind
  exact ⟨(h name e hfind').1, hne⟩

variable {w : World Dir Func} {files : Files Dir} {st st' : Shell Dir Func}

/-- What hooks do: nothing that is seen here, or they clear the table. -/
structure HooksRun (st st' : Shell Dir Func) (cleared : Bool) : Prop where
  vars : st'.vars = st.vars
  cwd : st'.cwd = st.cwd
  same : cleared = false → st'.cmdtable = st.cmdtable
  cleared : cleared = true → Cleared st.cmdtable st'.cmdtable

theorem callHooks_run (calls : List (VarFunc × Text)) (st : Shell Dir Func) :
    HooksRun st (calls.foldr Shell.callHook st) (calls.any fun c => c.1 = .changepath) := by
  induction calls with
  | nil => exact ⟨rfl, rfl, fun _ => rfl, by simp⟩
  | cons c calls ih =>
    rw [List.foldr_cons, List.any_cons]
    obtain ⟨func, value⟩ := c
    cases func with
    | changepath =>
      refine ⟨ih.vars, ih.cwd, by simp, fun _ => ?_⟩
      change Cleared st.cmdtable
        (clearcmdentry (changepathLoc 0 value) (calls.foldr Shell.callHook st).cmdtable)
      have hclear := clearcmdentry_cleared (changepathLoc 0 value)
        (calls.foldr Shell.callHook st).cmdtable
      cases hany : calls.any fun c => c.1 = .changepath with
      | false => rwa [ih.same hany] at hclear ⊢
      | true => exact (ih.cleared hany).trans hclear
    | changemail => exact ih
    | getoptsreset => exact ih

/-- An operation on the variables leaves table and path alone, or clears the table. -/
structure VarsRun (st st' : Shell Dir Func) : Prop where
  cwd : st'.cwd = st.cwd
  table : st'.cmdtable = st.cmdtable ∧ st'.pathval = st.pathval ∨
    Cleared st.cmdtable st'.cmdtable

theorem varOp_run {op : VarOp} (hop : op.Watched) : VarsRun st (st.varOp op).2 := by
  obtain ⟨new, hcalled, hpath⟩ := st.hooks.step_watched hop
  rw [st.quiet, List.append_nil] at hcalled
  have hrun := callHooks_run (st.vars.step op).2.called
    ({ st with vars := { (st.vars.step op).2 with called := [] },
                hooks := (st.hooks.step op).same rfl rfl, quiet := rfl } : Shell Dir Func)
  change HooksRun _ (st.varOp op).2 _ at hrun
  refine ⟨hrun.cwd, ?_⟩
  cases hany : (st.vars.step op).2.called.any fun c => c.1 = .changepath with
  | true => exact .inr (hrun.cleared hany)
  | false =>
    refine .inl ⟨hrun.same hany, ?_⟩
    have hsame : (st.vars.step op).2.pathValue = st.vars.pathValue := by
      apply hpath
      intro c hc heq
      rw [← hcalled] at hc
      rw [List.any_eq_false] at hany
      exact hany c hc (by simpa using heq)
    have hpathval : (st.varOp op).2.vars.pathValue = (st.vars.step op).2.pathValue := by
      rw [hrun.vars]
      rfl
    unfold Shell.pathval
    rw [hpathval, hsame]

/-! ### What every operation keeps -/

/-- What entries say was right at some directory. -/
def Shell.TableWas (files : Files Dir) (st : Shell Dir Func) : Prop :=
  ∀ name e, st.cmdtable.find name = some e → ∃ cwd, EntryOk files st.pathval cwd name e

/-- What entries say that are not to be rehashed is right. -/
def Shell.TableCurrent (files : Files Dir) (st : Shell Dir Func) : Prop :=
  ∀ name e idx, st.cmdtable.find name = some e → e.param = .normal idx → e.rehash = false →
    firstHit files st.cwd st.pathval name = some idx

theorem Shell.tableOk_iff : st.TableOk files ↔ st.TableWas files ∧ st.TableCurrent files := by
  constructor
  · intro h
    exact ⟨fun name e hfind => ⟨_, h name e hfind⟩,
      fun name e idx hfind hparam hre => (h name e hfind).current hparam hre⟩
  · rintro ⟨hwas, hcur⟩ name e hfind
    obtain ⟨cwd, he⟩ := hwas name e hfind
    exact ⟨he.normal, fun hparam hre => hcur name e _ hfind hparam hre, he.builtin, he.function⟩

theorem VarsRun.tableWas (hrun : VarsRun st st') (h : st.TableWas files) : st'.TableWas files := by
  intro name e hfind
  rcases hrun.table with ⟨htab, hpath⟩ | hclear
  · rw [htab] at hfind
    rw [hpath]
    exact h name e hfind
  · obtain ⟨hfind', hne⟩ := hclear name e hfind
    obtain ⟨cwd, he⟩ := h name e hfind'
    exact ⟨cwd, fun hparam => absurd hparam (hne _), fun hparam => absurd hparam (hne _),
      he.builtin, he.function⟩

theorem VarsRun.tableCurrent (hrun : VarsRun st st') (h : st.TableCurrent files) :
    st'.TableCurrent files := by
  intro name e idx hfind hparam hre
  rcases hrun.table with ⟨htab, hpath⟩ | hclear
  · rw [htab] at hfind
    rw [hpath, hrun.cwd]
    exact h name e idx hfind hparam hre
  · exact absurd hparam ((hclear name e hfind).2 idx)

/-- What operations on variables keep, and what does not depend on `curdir` and `physdir`,
`setpwd` keeps. -/
theorem setpwd_keeps {P : Shell Dir Func → Prop}
    (hvar : ∀ st op, op.Watched → P st → P (st.varOp op).2)
    (hdirs : ∀ st dirs, P st → P (st.withDirs dirs)) (dir : Option AbsPath) (setold : Bool)
    (h : P st) : P (setpwd files dir setold st).2 := by
  unfold setpwd
  generalize hold : (if setold then
    st.varOp (.setvar oldpwdName (some (dirText st.curdir)) VFlags.vexport) else (none, st)) = r
  have hr : P r.2 := by
    rw [← hold]
    split
    · exact hvar _ _ (by intro _; rfl) h
    · exact h
  obtain ⟨msg, st₁⟩ := r
  cases msg with
  | some msg => exact hr
  | none =>
    dsimp only
    cases dir with
    | none => exact hvar _ _ (by intro _; rfl) (hdirs st₁ (_, _) hr)
    | some dir => exact hvar _ _ (by intro _; rfl) (hdirs st₁ (_, _) hr)

/-- What they and the changes of the directory and of the marks keep, `cd` keeps. -/
theorem cdcmd_keeps {P : Shell Dir Func → Prop}
    (hvar : ∀ st op, op.Watched → P st → P (st.varOp op).2)
    (hdirs : ∀ st dirs, P st → P (st.withDirs dirs))
    (hcwd : ∀ st cwd, P st → P { st with cwd := cwd })
    (hmark : ∀ st, P st → P (st.withTable (hashcd st.builtinloc st.cmdtable))) (args : List Text)
    (h : P st) : P (cdcmd files args st).2 := by
  cases htarget : cdTarget files args st with
  | error msg =>
    rw [cdcmd_error htarget]
    exact h
  | ok target =>
    rw [cdcmd_target htarget]
    cases hchdir : files.chdir st.cwd
        (((cdDir target.path target.physical st).map AbsPath.text).getD target.path) with
    | error e =>
      rw [docd_failed hchdir]
      exact h
    | ok cwd =>
      have hset := @setpwd_keeps _ _ files _ P hvar hdirs (cdDir target.path target.physical st) true
        (hcwd st cwd h)
      cases heq : setpwd files (cdDir target.path target.physical st) true { st with cwd := cwd } with
      | mk msg st₁ =>
      rw [heq] at hset
      cases msg with
      | none =>
        rw [docd_set hchdir heq]
        exact hmark st₁ hset
      | some msg =>
        rw [docd_raised hchdir heq]
        exact hset

theorem tableWas_keeps :
    (∀ (st : Shell Dir Func) op, op.Watched → st.TableWas files → (st.varOp op).2.TableWas files) ∧
      ∀ (st : Shell Dir Func) dirs, st.TableWas files → (st.withDirs dirs).TableWas files :=
  ⟨fun _ _ hop h => (varOp_run hop).tableWas h, fun _ _ h => h⟩

theorem tableCurrent_keeps :
    (∀ (st : Shell Dir Func) op, op.Watched → st.TableCurrent files →
      (st.varOp op).2.TableCurrent files) ∧
      ∀ (st : Shell Dir Func) dirs, st.TableCurrent files → (st.withDirs dirs).TableCurrent files :=
  ⟨fun _ _ hop h => (varOp_run hop).tableCurrent h, fun _ _ h => h⟩

theorem hashcd_tableOk (h : st.TableWas files) :
    (st.withTable (hashcd st.builtinloc st.cmdtable)).TableOk files := by
  rw [Shell.tableOk_iff]
  constructor
  · intro name e hfind
    rw [Shell.withTable, hashcd, HashTable.find_update, Option.bind_eq_some_iff] at hfind
    obtain ⟨e', he', heq⟩ := hfind
    obtain rfl := Option.some.inj heq
    obtain ⟨cwd, he⟩ := h name e' he'
    refine ⟨cwd, he.normal, ?_, he.builtin, ?_⟩
    · intro idx hparam hre
      have hparam : e'.param = .normal idx := hparam
      simp [hparam, CmdParam.volatile] at hre
    · intro func hparam
      have hparam : e'.param = .function func := hparam
      simp [hparam, CmdParam.volatile, he.function hparam]
  · intro name e idx hfind hparam hre
    have hmark := hashcd_marked hfind (by rw [hparam]; rfl)
    rw [hre] at hmark
    cases hmark

theorem docd_tableOk {dest : Text} {physical : Bool} (h : st.TableOk files)
    (hmark : ∀ cwd, files.chdir st.cwd (((cdDir dest physical st).map AbsPath.text).getD dest) =
        .ok cwd →
      st.readonly oldpwdName = false ∧ st.readonly pwdName = false ∨ cwd = st.cwd ∨ st.Marked) :
    (docd files dest physical st).2.TableOk files := by
  cases hchdir : files.chdir st.cwd (((cdDir dest physical st).map AbsPath.text).getD dest) with
  | error e =>
    rw [docd_failed hchdir]
    exact h
  | ok cwd =>
    obtain ⟨hwas, hcur⟩ := Shell.tableOk_iff.1 h
    have hwas' : (setpwd files (cdDir dest physical st) true { st with cwd := cwd }).2.TableWas
        files := setpwd_keeps tableWas_keeps.1 tableWas_keeps.2 _ _ hwas
    cases hset : setpwd files (cdDir dest physical st) true { st with cwd := cwd } with
    | mk msg st₁ =>
    rw [hset] at hwas'
    cases msg with
    | none =>
      rw [docd_set hchdir hset]
      exact hashcd_tableOk hwas'
    | some msg =>
      have hraised := docd_raised hchdir hset
      rw [hraised]
      have hcur' : Shell.TableCurrent files { st with cwd := cwd } := by
        rcases hmark cwd hchdir with ⟨hold, hro⟩ | heq | hmarked
        · obtain ⟨st₁', st₂, -, -, hdone⟩ := docd_done hchdir hold hro
          rw [hdone] at hraised
          cases hraised
        · subst heq
          exact hcur
        · intro name e idx hfind hparam hre
          have := hmarked name e hfind (by rw [hparam]; rfl)
          rw [hre] at this
          cases this
      have hset' := @setpwd_keeps _ _ files _ _ tableCurrent_keeps.1 tableCurrent_keeps.2
        (cdDir dest physical st) true hcur'
      rw [hset] at hset'
      exact Shell.tableOk_iff.2 ⟨hwas', hset'⟩

/-! ### The other operations -/

theorem withTable_tableOk {table : CmdTable Func}
    (h : TableOk files st.pathval st.cwd table) : (st.withTable table).TableOk files := h

theorem unsetfunc_tableOk {path name : Text} {cwd : Dir} {table : CmdTable Func}
    (h : TableOk files path cwd table) : TableOk files path cwd (unsetfunc name table) := by
  unfold unsetfunc
  split
  · exact h.erase
  · exact h

theorem findCommand_tableOk {name : Text} {act : Act} {path : CmdPath}
    (h : st.TableOk w.files) (hpath : NoFunc (path.text st.pathval)) :
    (st.withTable (st.findCommand w name act path).table).TableOk w.files :=
  (findCommand_ok h hpath).2

theorem hashName_tableOk {name : Text} (h : st.TableOk w.files) (hpath : NoFunc st.pathval) :
    (st.hashName w name).TableOk w.files := by
  unfold Shell.hashName
  split
  · split
    · exact @findCommand_tableOk _ _ w (st.withTable (st.cmdtable.erase name)) _ _ _
        (withTable_tableOk (TableOk.erase h)) hpath
    · exact findCommand_tableOk h hpath
  · exact findCommand_tableOk h hpath

/-- What the table says stays right. -/
theorem cmdStep_tableOk {op : CmdOp Func} (h : st.TableOk w.files) (hop : st.CmdOk w op) :
    (st.cmdStep w op).2.TableOk w.files := by
  cases op with
  | var op =>
    obtain ⟨hwas, hcur⟩ := Shell.tableOk_iff.1 h
    exact Shell.tableOk_iff.2 ⟨(varOp_run hop).tableWas hwas, (varOp_run hop).tableCurrent hcur⟩
  | cd args =>
    change (cdcmd w.files args st).2.TableOk w.files
    cases htarget : cdTarget w.files args st with
    | error msg =>
      rw [cdcmd_error htarget]
      exact h
    | ok target =>
      rw [cdcmd_target htarget]
      exact docd_tableOk h fun cwd hchdir => hop target cwd htarget hchdir
  | defun name func => exact withTable_tableOk (TableOk.put h entryOk_function)
  | unsetfunc name => exact withTable_tableOk (unsetfunc_tableOk h)
  | hashClear =>
    apply withTable_tableOk
    exact fun name e hfind => h name e (clearcmdentry_cleared _ _ name e hfind).1
  | hash name => exact hashName_tableOk h hop
  | lookup name act path => exact findCommand_tableOk h hop

/-! ### Runs -/

/-- The table is empty. -/
def Shell.NoEntry (st : Shell Dir Func) : Prop := ∀ name, st.cmdtable.find name = none

theorem Cleared.noEntry {table table' : CmdTable Func} (h : Cleared table table')
    (hnone : ∀ name, table.find name = none) (name : Text) : table'.find name = none := by
  cases hfind : table'.find name with
  | none => rfl
  | some e =>
    have := (h name e hfind).1
    rw [hnone] at this
    cases this

theorem initShell_noEntry (root : Bool) (environ : List Text) (ppid : Text) (cwd : Dir)
    (samedir : AbsPath → Bool) :
    (initShell files root environ ppid cwd samedir : Shell Dir Func).NoEntry := by
  apply setpwd_keeps
  · intro st op hop h name
    rcases (varOp_run hop).table with ⟨htab, -⟩ | hclear
    · rw [htab]
      exact h name
    · exact hclear.noEntry h name
  · exact fun _ _ h => h
  · intro name
    have hrun := callHooks_run (initVars root environ ppid).called
      ({ vars := { initVars root environ ppid with called := [] }, cmdtable := HashTable.empty
         builtinloc := none, cwd := cwd, curdir := none, physdir := none
         hooks := (Vars.initVars_hooks root environ ppid).same rfl rfl, quiet := rfl } :
        Shell Dir Func)
    cases hany : (initVars root environ ppid).called.any fun c => c.1 = .changepath with
    | true => exact (hrun.cleared hany).noEntry (fun name => HashTable.find_empty name) name
    | false =>
      have htab := hrun.same hany
      exact (congrArg (fun t => HashTable.find t name) htab).trans (HashTable.find_empty name)

theorem initShell_tableOk (root : Bool) (environ : List Text) (ppid : Text) (cwd : Dir)
    (samedir : AbsPath → Bool) :
    (initShell files root environ ppid cwd samedir : Shell Dir Func).TableOk files := by
  intro name e hfind
  rw [initShell_noEntry] at hfind
  cases hfind

theorem onlyFunctions_find {name : Text} {e : TblEntry Func} :
    st.onlyFunctions.cmdtable.find name = some e ↔
      st.cmdtable.find name = some e ∧ ∃ func, e.param = .function func := by
  rw [Shell.onlyFunctions, Shell.withTable, HashTable.find_update, Option.bind_eq_some_iff]
  constructor
  · rintro ⟨e', he', heq⟩
    split at heq
    case h_1 func hparam =>
      obtain rfl := Option.some.inj heq
      exact ⟨he', func, hparam⟩
    all_goals cases heq
  · rintro ⟨hfind, func, hparam⟩
    exact ⟨e, hfind, by rw [hparam]⟩

theorem onlyFunctions_none {name : Text}
    (h : ∀ e, st.cmdtable.find name = some e → ∀ func, e.param ≠ .function func) :
    st.onlyFunctions.cmdtable.find name = none := by
  cases hfind : st.onlyFunctions.cmdtable.find name with
  | none => rfl
  | some e =>
    obtain ⟨hfind', func, hparam⟩ := onlyFunctions_find.1 hfind
    exact absurd hparam (h e hfind' func)

/-- The command is hashed as a builtin that is not a regular one, and only regular ones are
asked for. -/
def Shell.Refused (st : Shell Dir Func) (name : Text) (act : Act) : Prop :=
  '/' ∉ name ∧ act.regbltin ∧
    ∃ bcmd rehash, st.cmdtable.find name = some ⟨.builtin bcmd, rehash⟩ ∧ bcmd.regular = false

theorem answer_onlyFunctions_iff {name : Text} {act : Act} {path : Text} (h : st.TableOk w.files) :
    answer w st.cwd path name act st.cmdtable =
        answer w st.cwd path name act st.onlyFunctions.cmdtable ↔ ¬ st.Refused name act := by
  unfold answer Shell.Refused
  by_cases hslash : '/' ∈ name
  · simp [hslash]
  rw [if_neg hslash, if_neg hslash]
  cases hfind : st.cmdtable.find name with
  | none =>
    rw [onlyFunctions_none (by simp [hfind])]
    simp
  | some e =>
    obtain ⟨param, rehash⟩ := e
    cases param with
    | function func =>
      rw [onlyFunctions_find.2 ⟨hfind, func, rfl⟩]
      simp
    | normal idx =>
      rw [onlyFunctions_none (by simp [hfind])]
      simp
    | builtin bcmd =>
      have hb := (h name _ hfind).builtin rfl
      have hfresh : freshEntry w st.cwd path name act = .builtin bcmd := by
        unfold freshEntry
        rw [hb]
      rw [onlyFunctions_none (by simp [hfind])]
      dsimp only
      rw [hfresh]
      cases hreg : bcmd.regular with
      | true => simp [hreg]
      | false =>
        cases hact : act.regbltin with
        | true => simp [hslash, hreg]
        | false => simp

/-- In every state that a run reaches, a lookup gives what it would give with nothing but the
functions in the table, unless it asks for regular builtins only and the command is hashed as
another one. -/
theorem find_transparent_iff (w : World Dir Func) (root : Bool) (environ : List Text)
    (ppid : Text) (cwd : Dir) (samedir : AbsPath → Bool) (ops : List (CmdOp Func))
    (hops : Run.Along (Shell.cmdStep w) (Shell.CmdOk w)
      (initShell w.files root environ ppid cwd samedir) ops)
    (name : Text) (act : Act) (path : CmdPath) :
    let st := (Run.run (Shell.cmdStep w) (initShell w.files root environ ppid cwd samedir) ops).2
    NoFunc (path.text st.pathval) →
      ((st.findCommand w name act path).entry = (st.onlyFunctions.findCommand w name act path).entry
        ↔ ¬ st.Refused name act) := by
  intro st hpath
  have h : st.TableOk w.files :=
    Run.run_invariant (fun _ _ h hop => cmdStep_tableOk h hop)
      (initShell_tableOk root environ ppid cwd samedir) hops
  have hempty : st.onlyFunctions.TableOk w.files :=
    fun name e hfind => h name e (onlyFunctions_find.1 hfind).1
  rw [← @answer_onlyFunctions_iff _ _ w st name act (path.text st.pathval) h]
  rw [Shell.findCommand, (findCommand_ok h hpath).1, Shell.findCommand,
    (findCommand_ok hempty hpath).1]
  exact ⟨Except.ok.inj, congrArg Except.ok⟩

/-! ### A builtin that is not a regular one -/

/-- No applets. -/
def twoDirsWorld : World Bool Unit where
  files := twoDirs
  toyFind _ := false
  toyRuns _ := false
  readcmdfile _ table := table
  toyFind_slash h := by cases h
  readcmdfile_wf h := h

/-- `evalcommand` looks the command up among regular builtins and functions first. -/
def echoOps : List (CmdOp Unit) := [.lookup "echo".toList { regbltin := true } .pathval]

def echoStart : Shell Bool Unit := initShell twoDirs false [] "1".toList false fun _ => false

theorem find_transparent_echo :
    let st := (Run.run (Shell.cmdStep twoDirsWorld) echoStart echoOps).2
    (st.findCommand twoDirsWorld "echo".toList {} .pathval).entry =
      (st.onlyFunctions.findCommand twoDirsWorld "echo".toList {} .pathval).entry := by
  have hpath : '%' ∉ echoStart.pathval := by decide +kernel
  have hpath' : '%' ∉ (Run.run (Shell.cmdStep twoDirsWorld) echoStart echoOps).2.pathval := by
    decide +kernel
  refine (find_transparent_iff twoDirsWorld false [] "1".toList false (fun _ => false) echoOps
    ⟨noFunc_of_no_percent hpath, trivial⟩ "echo".toList {} .pathval
    (noFunc_of_no_percent hpath')).2 ?_
  rintro ⟨-, hreg, -⟩
  cases hreg

/-- Once `echo` is in the table, the same lookup does not find it. -/
theorem find_not_transparent :
    let st := (Run.run (Shell.cmdStep twoDirsWorld) echoStart echoOps).2
    (st.findCommand twoDirsWorld "echo".toList { regbltin := true } .pathval).entry ≠
      (st.onlyFunctions.findCommand twoDirsWorld "echo".toList { regbltin := true } .pathval).entry := by
  decide +kernel

end Bootsh
