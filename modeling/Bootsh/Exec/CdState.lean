import Bootsh.Exec.Cd

/-!
The state in which `cd` leaves the shell. `setpwd` sets two variables between `chdir` and
`hashcd`, and an error of one of them leaves the rest undone.
-/
namespace Bootsh

variable {Dir Func : Type} {files : Files Dir} {st st' : Shell Dir Func} {name val : Text}

/-! ### Setting a variable without a hook -/

/-- Only the value of one variable changes. -/
structure Sets (st st' : Shell Dir Func) (name val : Text) : Prop where
  cwd : st'.cwd = st.cwd
  curdir : st'.curdir = st.curdir
  physdir : st'.physdir = st.physdir
  cmdtable : st'.cmdtable = st.cmdtable
  builtinloc : st'.builtinloc = st.builtinloc
  value : (lookupvar name st'.vars).1 = some val
  others : ∀ n ≠ name, (lookupvar n st'.vars).1 = (lookupvar n st.vars).1
  entry : ∀ n ≠ name, st'.vars.entry n = st.vars.entry n

theorem Shell.withVars_quiet {vars : Vars} {h : vars.Hooks} (hcalled : vars.called = []) :
    st.withVars vars h = { st with vars := vars, hooks := h, quiet := hcalled } := by
  obtain ⟨_, _, _, _, _, called⟩ := vars
  obtain rfl : called = [] := hcalled
  rfl

theorem Shell.varOp_eq {op : VarOp} {r : Option Text} {vars : Vars}
    (h : st.vars.step op = (r, vars)) :
    ∃ hooks : vars.Hooks, st.varOp op = (r, st.withVars vars hooks) := by
  have hooks := st.hooks.step op
  rw [h] at hooks
  refine ⟨hooks, ?_⟩
  unfold Shell.varOp
  simp only [h]

variable {flags : VFlags}

theorem Shell.varOp_readonly (hgood : isGoodName name) (hname : varName name = name)
    (hro : (st.vars.entry name).readonly) :
    st.varOp (.setvar name (some val) flags) = (some (readonlyError name), st) := by
  have hstep : st.vars.step (.setvar name (some val) flags) =
      (some (readonlyError name), st.vars) := by
    simp [Vars.step, setvar, hname, hgood, Vars.setvareqVal_readonly hro]
  obtain ⟨hooks, heq⟩ := Shell.varOp_eq hstep
  rw [heq, Shell.withVars_quiet st.quiet]

theorem Shell.varOp_set (hgood : isGoodName name) (hname : varName name = name)
    (hhook : hookOf name = none) (hset : flags.unset = false)
    (hro : (st.vars.entry name).readonly = false) :
    ∃ st', st.varOp (.setvar name (some val) flags) = (none, st') ∧ Sets st st' name val := by
  obtain ⟨vp, hok, hvalue, hunset⟩ := @Vars.Hooks.setvareqVal_set st.vars name
    (some (.text val)) (flags ||| VFlags.vnosave) st.hooks hhook (by simp [hset]) hro
  have hstep : st.vars.step (.setvar name (some val) flags) = (none, st.vars.store name vp) := by
    have hok' : setvar name (some val) flags st.vars = .ok (st.vars.store name vp) := by
      simpa [setvar, hname, hgood] using hok
    rw [Vars.step, hok', orRaise_ok]
  obtain ⟨hooks, heq⟩ := Shell.varOp_eq hstep
  refine ⟨_, heq, ?_⟩
  have hquiet : (st.vars.store name vp).called = [] := st.quiet
  rw [Shell.withVars_quiet hquiet]
  refine ⟨rfl, rfl, rfl, rfl, rfl, Vars.lookupvar_store_self hvalue hunset, ?_, ?_⟩
  · intro n hn
    exact Vars.lookupvar_store_ne hn
  · intro n hn
    change (st.vars.store name vp).entry n = _
    rw [Vars.entry_store, Function.update_of_ne hn]

/-! ### What is to hold after `cd` -/

def Shell.value (st : Shell Dir Func) (name : Text) : Option Text := (lookupvar name st.vars).1

def Shell.readonly (st : Shell Dir Func) (name : Text) : Bool := (st.vars.entry name).readonly

/-- Every command that a change of directory can make wrong is marked. -/
def Shell.Marked (st : Shell Dir Func) : Prop :=
  ∀ name e, st.cmdtable.find name = some e → e.param.volatile st.builtinloc → e.rehash

/-- `curdir` is a name of the process directory. -/
def Shell.Named (files : Files Dir) (st : Shell Dir Func) : Prop :=
  ∃ p, st.curdir = some p ∧ files.names p st.cwd

structure Unmoved (st st' : Shell Dir Func) : Prop where
  cwd : st'.cwd = st.cwd
  curdir : st'.curdir = st.curdir
  physdir : st'.physdir = st.physdir
  pwd : st'.value pwdName = st.value pwdName
  oldpwd : st'.value oldpwdName = st.value oldpwdName

/-- The process is in the directory that `chdir` found, and the shell knows it. -/
structure Moved (files : Files Dir) (st st' : Shell Dir Func) : Prop where
  moved : ∃ path, files.chdir st.cwd path = .ok st'.cwd
  named : st'.Named files
  pwd : st.readonly pwdName = false → st'.value pwdName = some (dirText st'.curdir)
  marked : st'.Marked

def CdConsistent (files : Files Dir) (st st' : Shell Dir Func) : Prop :=
  Unmoved st st' ∨ Moved files st st'

/-- The names that `setpwd` gives to `curdir` and `physdir`. -/
def newDirs (files : Files Dir) (cwd : Dir) (dir : Option AbsPath) :
    Option AbsPath × Option AbsPath :=
  match dir with
  | none => (files.getcwd cwd, files.getcwd cwd)
  | some dir => (some dir, none)

def Shell.withDirs (dirs : Option AbsPath × Option AbsPath) (st : Shell Dir Func) : Shell Dir Func :=
  { st with curdir := dirs.1, physdir := dirs.2 }

/-- Where `chdir` succeeds, the rest of `docd` has nothing left to do, or the name of the
directory can be found and neither variable is readonly. -/
def CdSettled (files : Files Dir) (dir : Option AbsPath) (cwd : Dir) (st : Shell Dir Func) :
    Prop :=
  if st.readonly oldpwdName then
    cwd = st.cwd ∨ { st with cwd := cwd }.Named files ∧
      (st.readonly pwdName = false → st.value pwdName = some (dirText st.curdir)) ∧ st.Marked
  else if st.readonly pwdName then
    (newDirs files cwd dir).1 ≠ none ∧ st.Marked ∨
      cwd = st.cwd ∧ newDirs files cwd dir = (st.curdir, st.physdir) ∧
        st.value oldpwdName = some (dirText st.curdir)
  else
    (newDirs files cwd dir).1 ≠ none ∨
      cwd = st.cwd ∧ st.curdir = none ∧ st.physdir = none ∧ st.value oldpwdName = some [] ∧
        st.value pwdName = some []

/-! ### `docd` -/

theorem hashcd_marked {name : Text} {e : TblEntry Func} {loc : Option ℕ} {table : CmdTable Func}
    (h : (hashcd loc table).find name = some e) (hvol : e.param.volatile loc) : e.rehash := by
  rw [hashcd, HashTable.find_update, Option.bind_eq_some_iff] at h
  obtain ⟨e', -, heq⟩ := h
  obtain rfl := Option.some.inj heq
  have hvol : e'.param.volatile loc = true := hvol
  simp [hvol]

variable {dest : Text} {physical : Bool} {cwd : Dir} {dir : Option AbsPath}

/-- The names are right if there are any. -/
theorem named_newDirs (h : files.chdir st.cwd ((dir.map AbsPath.text).getD dest) = .ok cwd)
    (hcwd : st'.cwd = cwd) (hcur : st'.curdir = (newDirs files cwd dir).1) :
    st'.Named files ↔ (newDirs files cwd dir).1 ≠ none := by
  rw [Shell.Named, hcwd, hcur]
  constructor
  · rintro ⟨p, hp, -⟩
    simp [hp]
  · intro hne
    obtain ⟨p, hp⟩ := Option.ne_none_iff_exists'.1 hne
    refine ⟨p, hp, ?_⟩
    cases dir with
    | none => exact files.getcwd_names hp
    | some q =>
      obtain rfl : q = p := Option.some.inj hp
      exact files.chdir_names h

theorem docd_failed {e : Errno} (h : files.chdir st.cwd
      (((cdDir dest physical st).map AbsPath.text).getD dest) = .error e) :
    docd files dest physical st = (.failed e, st) := by
  unfold docd
  dsimp only
  rw [h]

theorem docd_raised {msg : Text} (h : files.chdir st.cwd
      (((cdDir dest physical st).map AbsPath.text).getD dest) = .ok cwd)
    (hset : setpwd files (cdDir dest physical st) true { st with cwd := cwd } = (some msg, st')) :
    docd files dest physical st = (.raised msg, st') := by
  unfold docd
  dsimp only
  rw [h]
  dsimp only
  rw [hset]

theorem docd_set (h : files.chdir st.cwd
      (((cdDir dest physical st).map AbsPath.text).getD dest) = .ok cwd)
    (hset : setpwd files (cdDir dest physical st) true { st with cwd := cwd } = (none, st')) :
    docd files dest physical st =
      (.done, { st' with cmdtable := hashcd st'.builtinloc st'.cmdtable }) := by
  unfold docd
  dsimp only
  rw [h]
  dsimp only
  rw [hset]

theorem docd_readonly_oldpwd (h : files.chdir st.cwd
      (((cdDir dest physical st).map AbsPath.text).getD dest) = .ok cwd)
    (hro : st.readonly oldpwdName) :
    docd files dest physical st = (.raised (readonlyError oldpwdName), { st with cwd := cwd }) := by
  have hset := @Shell.varOp_readonly _ _ { st with cwd := cwd } oldpwdName (dirText st.curdir)
    VFlags.vexport (by decide) (by decide) hro
  have hpwd : setpwd files (cdDir dest physical st) true { st with cwd := cwd } =
      (some (readonlyError oldpwdName), { st with cwd := cwd }) := by
    unfold setpwd
    rw [if_pos rfl, hset]
  exact docd_raised h hpwd

/-- `setpwd` up to the assignment of `PWD`. -/
theorem setpwd_oldpwd (hro : st.readonly oldpwdName = false) :
    ∃ st₁, Sets st st₁ oldpwdName (dirText st.curdir) ∧
      setpwd files dir true st = (st₁.withDirs (newDirs files st₁.cwd dir)).varOp
        (.setvar pwdName (some (dirText (newDirs files st₁.cwd dir).1)) VFlags.vexport) := by
  obtain ⟨st₁, hset, hsets⟩ := @Shell.varOp_set _ _ st oldpwdName (dirText st.curdir)
    VFlags.vexport (by decide) (by decide) (by decide) rfl hro
  refine ⟨st₁, hsets, ?_⟩
  unfold setpwd
  rw [if_pos rfl, hset]
  cases dir <;> rfl

theorem docd_readonly_pwd (h : files.chdir st.cwd
      (((cdDir dest physical st).map AbsPath.text).getD dest) = .ok cwd)
    (hold : st.readonly oldpwdName = false) (hro : st.readonly pwdName) :
    ∃ st₁, Sets { st with cwd := cwd } st₁ oldpwdName (dirText st.curdir) ∧
      (docd files dest physical st).2 =
        st₁.withDirs (newDirs files cwd (cdDir dest physical st)) := by
  obtain ⟨st₁, hsets, hpwd⟩ := @setpwd_oldpwd _ _ files { st with cwd := cwd }
    (cdDir dest physical st) hold
  refine ⟨st₁, hsets, ?_⟩
  have hcwd : st₁.cwd = cwd := hsets.cwd
  have hro₁ : ((st₁.withDirs (newDirs files cwd (cdDir dest physical st))).vars.entry
      pwdName).readonly := by
    change (st₁.vars.entry pwdName).readonly = true
    rw [hsets.entry pwdName (by decide)]
    exact hro
  rw [hcwd, Shell.varOp_readonly (by decide) (by decide) hro₁] at hpwd
  rw [docd_raised h hpwd]

theorem docd_done (h : files.chdir st.cwd
      (((cdDir dest physical st).map AbsPath.text).getD dest) = .ok cwd)
    (hold : st.readonly oldpwdName = false) (hro : st.readonly pwdName = false) :
    ∃ st₁ st₂, Sets { st with cwd := cwd } st₁ oldpwdName (dirText st.curdir) ∧
      Sets (st₁.withDirs (newDirs files cwd (cdDir dest physical st))) st₂ pwdName
        (dirText (newDirs files cwd (cdDir dest physical st)).1) ∧
      docd files dest physical st =
        (.done, { st₂ with cmdtable := hashcd st₂.builtinloc st₂.cmdtable }) := by
  obtain ⟨st₁, hsets, hpwd⟩ := @setpwd_oldpwd _ _ files { st with cwd := cwd }
    (cdDir dest physical st) hold
  have hcwd : st₁.cwd = cwd := hsets.cwd
  have hro₁ : (st₁.vars.entry pwdName).readonly = false := by
    rw [hsets.entry pwdName (by decide)]
    exact hro
  rw [hcwd] at hpwd
  obtain ⟨st₂, hset₂, hsets₂⟩ := @Shell.varOp_set _ _
    (st₁.withDirs (newDirs files cwd (cdDir dest physical st))) pwdName
    (dirText (newDirs files cwd (cdDir dest physical st)).1) VFlags.vexport
    (by decide) (by decide) (by decide) rfl hro₁
  refine ⟨st₁, st₂, hsets, hsets₂, ?_⟩
  rw [hset₂] at hpwd
  exact docd_set h hpwd

/-- Where `chdir` succeeds, the shell is consistent exactly if nothing was left to do. -/
theorem docd_consistent_iff (h : files.chdir st.cwd
      (((cdDir dest physical st).map AbsPath.text).getD dest) = .ok cwd) :
    CdConsistent files st (docd files dest physical st).2 ↔
      CdSettled files (cdDir dest physical st) cwd st := by
  unfold CdSettled
  split
  case isTrue hold =>
    rw [docd_readonly_oldpwd h hold]
    constructor
    · rintro (hun | hmv)
      · exact .inl hun.cwd
      · exact .inr ⟨hmv.named, hmv.pwd, hmv.marked⟩
    · rintro (heq | ⟨hnamed, hpwd, hmarked⟩)
      · exact .inl ⟨heq, rfl, rfl, rfl, rfl⟩
      · exact .inr ⟨⟨_, h⟩, hnamed, hpwd, hmarked⟩
  case isFalse hold =>
    rw [Bool.not_eq_true] at hold
    split
    case isTrue hro =>
      obtain ⟨st₁, hsets, hdocd⟩ := docd_readonly_pwd h hold hro
      have hnamed := @named_newDirs _ _ _ _ (docd files dest physical st).2 _ _ _ h
        (by rw [hdocd]; exact hsets.cwd) (by rw [hdocd]; rfl)
      have hmarked : (docd files dest physical st).2.Marked ↔ st.Marked := by
        rw [hdocd, Shell.Marked, Shell.Marked]
        change (∀ name e, st₁.cmdtable.find name = some e →
          e.param.volatile st₁.builtinloc = true → e.rehash = true) ↔ _
        rw [hsets.cmdtable, hsets.builtinloc]
      constructor
      · rintro (hun | hmv)
        · refine .inr ⟨?_, ?_, ?_⟩
          · rw [← hun.cwd, hdocd]
            exact hsets.cwd.symm
          · rw [← hun.curdir, ← hun.physdir, hdocd]
            rfl
          · rw [← hun.oldpwd, hdocd]
            exact hsets.value
        · exact .inl ⟨hnamed.1 hmv.named, hmarked.1 hmv.marked⟩
      · rintro (⟨hne, hmark⟩ | ⟨heq, hdirs, hval⟩)
        · refine .inr ⟨⟨_, h.trans ?_⟩, hnamed.2 hne, ?_, hmarked.2 hmark⟩
          · rw [hdocd]
            exact congrArg Except.ok hsets.cwd.symm
          · simp [hro]
        · rw [hdocd, hdirs]
          refine .inl ⟨hsets.cwd.trans heq, rfl, rfl, ?_, ?_⟩
          · exact hsets.others pwdName (by decide)
          · exact hsets.value.trans hval.symm
    case isFalse hro =>
      rw [Bool.not_eq_true] at hro
      obtain ⟨st₁, st₂, hsets, hsets₂, hdocd⟩ := docd_done h hold hro
      have hcwd : (docd files dest physical st).2.cwd = cwd := by
        rw [hdocd]
        exact hsets₂.cwd.trans hsets.cwd
      have hcur : (docd files dest physical st).2.curdir =
          (newDirs files cwd (cdDir dest physical st)).1 := by
        rw [hdocd]
        exact hsets₂.curdir
      have hphys : (docd files dest physical st).2.physdir =
          (newDirs files cwd (cdDir dest physical st)).2 := by
        rw [hdocd]
        exact hsets₂.physdir
      have hpwd : (docd files dest physical st).2.value pwdName =
          some (dirText (newDirs files cwd (cdDir dest physical st)).1) := by
        rw [hdocd]
        exact hsets₂.value
      have holdpwd : (docd files dest physical st).2.value oldpwdName =
          some (dirText st.curdir) := by
        rw [hdocd]
        exact (hsets₂.others oldpwdName (by decide)).trans hsets.value
      have hnamed := named_newDirs h hcwd hcur
      constructor
      · rintro (hun | hmv)
        · by_cases hne : (newDirs files cwd (cdDir dest physical st)).1 = none
          · have hcur' : st.curdir = none := by rw [← hun.curdir, hcur, hne]
            refine .inr ⟨hcwd.symm.trans hun.cwd, hcur', ?_, ?_, ?_⟩
            · rw [← hun.physdir, hphys]
              cases hdir : cdDir dest physical st with
              | none =>
                rw [hdir] at hne
                exact hne
              | some p =>
                rw [hdir] at hne
                cases hne
            · rw [← hun.oldpwd, holdpwd, hcur']
              rfl
            · rw [← hun.pwd, hpwd, hne]
              rfl
          · exact .inl hne
        · exact .inl (hnamed.1 hmv.named)
      · have hmoved (hne : (newDirs files cwd (cdDir dest physical st)).1 ≠ none) :
            Moved files st (docd files dest physical st).2 := by
          refine ⟨⟨_, h.trans (congrArg Except.ok hcwd.symm)⟩, hnamed.2 hne, ?_, ?_⟩
          · intro _
            rw [hpwd, hcur]
          · rw [hdocd]
            intro name e hfind hvol
            exact hashcd_marked hfind hvol
        rintro (hne | ⟨heq, hcur', hphys', hov, hpv⟩)
        · exact .inr (hmoved hne)
        · by_cases hne : (newDirs files cwd (cdDir dest physical st)).1 = none
          · refine .inl ⟨hcwd.trans heq, ?_, ?_, ?_, ?_⟩
            · rw [hcur, hne, hcur']
            · rw [hphys, hphys']
              cases hdir : cdDir dest physical st with
              | none =>
                rw [hdir] at hne
                exact hne
              | some p =>
                rw [hdir] at hne
                cases hne
            · rw [hpwd, hne, hpv]
              rfl
            · rw [holdpwd, hcur', hov]
              rfl
          · exact .inr (hmoved hne)

/-! ### `cdcmd` -/

theorem cdcmd_error {args : List Text} {msg : Text} (h : cdTarget files args st = .error msg) :
    (cdcmd files args st).2 = st := by
  unfold cdcmd
  rw [h]

theorem cdcmd_target {args : List Text} {target : CdTarget}
    (h : cdTarget files args st = .ok target) :
    (cdcmd files args st).2 = (docd files target.path target.physical st).2 := by
  unfold cdcmd
  rw [h]
  dsimp only
  split <;> rename_i hdocd <;> rw [hdocd]

/-- After `cd`, whether it returns or raises an error, either nothing has changed or the
process is in the new directory and the shell knows it, exactly if `chdir` fails or leaves
nothing to do that a readonly variable or `getcwd` prevents. -/
theorem cdcmd_consistent_iff (files : Files Dir) (args : List Text) (st : Shell Dir Func) :
    CdConsistent files st (cdcmd files args st).2 ↔
      ∀ target cwd, cdTarget files args st = .ok target →
        files.chdir st.cwd (((cdDir target.path target.physical st).map AbsPath.text).getD
          target.path) = .ok cwd →
        CdSettled files (cdDir target.path target.physical st) cwd st := by
  have hrefl : CdConsistent files st st := .inl ⟨rfl, rfl, rfl, rfl, rfl⟩
  cases htarget : cdTarget files args st with
  | error msg =>
    rw [cdcmd_error htarget]
    exact iff_of_true hrefl fun _ _ h => by cases h
  | ok target =>
    rw [cdcmd_target htarget]
    cases hchdir : files.chdir st.cwd
        (((cdDir target.path target.physical st).map AbsPath.text).getD target.path) with
    | error e =>
      rw [docd_failed hchdir]
      refine iff_of_true hrefl ?_
      intro target' cwd heq h
      obtain rfl := Except.ok.inj heq
      rw [hchdir] at h
      cases h
    | ok cwd =>
      rw [docd_consistent_iff hchdir]
      constructor
      · intro h target' cwd' heq hchdir'
        obtain rfl := Except.ok.inj heq
        obtain rfl := Except.ok.inj (hchdir.symm.trans hchdir')
        exact h
      · intro h
        exact h target cwd rfl hchdir

/-- The directories `/` and `/a`; every other name leads to `/`. -/
def twoDirs : Files Bool where
  stat _ _ := .error .enoent
  access _ _ := false
  execve _ _ := .error .enoent
  chdir _ path := .ok (path == "/a".toList)
  getcwd d := some (if d then ⟨"/a".toList, rfl⟩ else ⟨"/".toList, rfl⟩)
  names p d := (p.text == "/a".toList) = d
  stat_abs _ _ _ := rfl
  access_abs _ _ _ := rfl
  chdir_names h := Except.ok.inj h
  getcwd_names {d p} h := by
    obtain rfl := Option.some.inj h
    cases d <;> decide

/-- In `/`, after `readonly OLDPWD=/`. -/
def readonlyOldpwd : Shell Bool Unit :=
  ((initShell twoDirs false [] "1".toList false fun _ => false).varOp
    (.readonlyArg "OLDPWD=/".toList)).2

/-- `cd /a` moves the process, raises an error and leaves `curdir` at `/`. -/
theorem cd_not_consistent :
    ¬ CdConsistent twoDirs readonlyOldpwd (cdcmd twoDirs ["/a".toList] readonlyOldpwd).2 := by
  have hend : (cdcmd twoDirs ["/a".toList] readonlyOldpwd).2.cwd = true ∧
      (cdcmd twoDirs ["/a".toList] readonlyOldpwd).2.curdir = some ⟨"/".toList, rfl⟩ ∧
      readonlyOldpwd.cwd = false := by
    decide +kernel
  obtain ⟨hcwd, hcur, hold⟩ := hend
  rintro (hun | hmv)
  · have := hun.cwd
    rw [hcwd, hold] at this
    cases this
  · obtain ⟨p, hp, hnames⟩ := hmv.named
    rw [hcur] at hp
    obtain rfl := Option.some.inj hp
    rw [hcwd] at hnames
    have hsame : ("/".toList == "/a".toList) = true := hnames
    exact absurd hsame (by decide)

end Bootsh
